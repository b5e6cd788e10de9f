import WhileCompiler.Builtins
import WhileCompiler.Proofs.Ir.FreshNames
import WhileCompiler.Proofs.Results

/-!
# The built-in names

What the built-in names are called and what types they have, whichever routines the host announces.
-/

namespace WhileCompiler

namespace Ty

/-- Whether this is the type of a value, and not of a function. -/
def IsValue : Ty → Prop
  | .int | .bool | .void => True
  | .function _ _ => False

/-- A function of values that gives a value. -/
def IsFirstOrder : Ty → Prop
  | .int | .bool | .void => False
  | .function parameters result => (∀ parameter ∈ parameters, parameter.IsValue) ∧ result.IsValue

theorem IsFirstOrder.not_isValue {type : Ty} (htype : type.IsFirstOrder) : ¬ type.IsValue := by
  cases type with
  | int | bool | void => exact htype.elim
  | function parameters result => exact id

end Ty

theorem Operator.isFirstOrder_type (operator : Operator) : operator.type.IsFirstOrder := by
  cases operator <;> simp [Operator.type, Ty.IsFirstOrder, Ty.IsValue]

namespace Builtins

variable {builtins : Builtins} {name : String} {type : Ty}

theorem lookup_map_values {α β : Type} (convert : α → β) (table : List (String × α))
    (name : String) :
    (table.map fun (name, value) => (name, convert value)).lookup name =
      (table.lookup name).map convert := by
  induction table with
  | nil => rfl
  | cons entry rest ih =>
      rw [List.map_cons, List.lookup_cons, List.lookup_cons, ih]
      split <;> rfl

/-- A built-in name is that of an operator, or else of a routine. -/
theorem signature?_eq (builtins : Builtins) (name : String) :
    builtins.signature? name =
      ((builtins.operator? name).map Operator.type).or (builtins.routines.get? name) := by
  rw [signature?, signatures, Bindings.get?, List.lookup_append, operator?]
  cases builtins.hasOperators with
  | true => exact congrArg (Option.or · _) (lookup_map_values Operator.type Operator.table name)
  | false => rfl

theorem signature?_of_operator? {operator : Operator}
    (hoperator : builtins.operator? name = some operator) :
    builtins.signature? name = some operator.type := by
  rw [signature?_eq, hoperator]
  rfl

theorem mem_routines_of_get? (hroutine : builtins.routines.get? name = some type) :
    name ∈ builtins.routines.names := by
  obtain ⟨before, after, hentries, -⟩ := List.lookup_eq_some_iff.1 hroutine
  rw [Bindings.names, hentries]
  simp

theorem isIdentifier_of_get? (hroutine : builtins.routines.get? name = some type) :
    Text.isIdentifier name.toList = true := by
  have hlinkable := builtins.linkable name (mem_routines_of_get? hroutine)
  simp only [isLinkable, Bool.and_eq_true] at hlinkable
  exact hlinkable.1.1

/-- Operators are not spelled like names. -/
theorem operator?_of_isIdentifier (hname : Text.isIdentifier name.toList = true) :
    builtins.operator? name = none := by
  have htable : Operator.table.all (fun entry => !Text.isIdentifier entry.1.toList) = true := by
    decide
  have hlookup : Operator.ofName? name = none := by
    rw [Operator.ofName?, List.lookup_eq_none_iff]
    intro entry hmem
    have hentry := List.all_eq_true.1 htable entry hmem
    rw [bne_iff_ne]
    rintro rfl
    rw [hname] at hentry
    cases hentry
  rw [operator?, hlookup, ite_self]

theorem not_isTemporary_of_isIdentifier (hname : Text.isIdentifier name.toList = true) :
    ¬ Ir.IsTemporary name := by
  intro htemporary
  rw [Ir.IsTemporary] at htemporary
  cases hchars : name.toList with
  | nil => rw [hchars] at htemporary; cases htemporary
  | cons first rest =>
      rw [hchars] at htemporary hname
      obtain rfl := Option.some.inj htemporary
      cases hname

/-- No built-in name is kept for the results of calls. -/
theorem not_isTemporary_of_signature? (hname : (builtins.signature? name).isSome) :
    ¬ Ir.IsTemporary name := by
  rw [signature?_eq] at hname
  cases hoperator : builtins.operator? name with
  | none =>
      rw [hoperator] at hname
      obtain ⟨type, hroutine⟩ := Option.isSome_iff_exists.1 hname
      exact not_isTemporary_of_isIdentifier (isIdentifier_of_get? hroutine)
  | some operator =>
      have htable : Operator.table.all (fun entry => !decide (Ir.IsTemporary entry.1)) = true := by
        decide
      have hlookup : Operator.ofName? name = some operator := by
        rw [operator?] at hoperator
        split at hoperator
        · exact hoperator
        · cases hoperator
      obtain ⟨before, after, hentries, -⟩ := List.lookup_eq_some_iff.1 hlookup
      have hmem : (name, operator) ∈ Operator.table := by
        rw [hentries]
        simp
      simpa using List.all_eq_true.1 htable _ hmem

/-- Announces routines one after the other. -/
def announce (builtins : Builtins) (routines : List (String × Ty)) : Except LinkError Builtins :=
  routines.foldlM (fun builtins (name, type) => builtins.withRoutine name type) builtins

/-- Whether the types of all built-in names are of a kind. -/
def AllTypes (kind : Ty → Prop) (builtins : Builtins) : Prop :=
  ∀ name type, builtins.signature? name = some type → kind type

section

variable {kind : Ty → Prop}

theorem allTypes_operators (hoperators : ∀ operator : Operator, kind operator.type) :
    operators.AllTypes kind := by
  intro name type htype
  rw [signature?_eq] at htype
  cases hoperator : operators.operator? name with
  | none => rw [hoperator] at htype; cases htype
  | some operator =>
      rw [hoperator] at htype
      exact Option.some.inj htype ▸ hoperators operator

theorem AllTypes.insert (hbuiltins : builtins.AllTypes kind) (hname : isLinkable name)
    (htype : kind type) : (builtins.insert name type hname).AllTypes kind := by
  intro other found hfound
  have hsame : (builtins.insert name type hname).operator? other = builtins.operator? other := rfl
  have hroutine : (builtins.insert name type hname).routines.get? other =
      if other = name then some type else builtins.routines.get? other :=
    builtins.routines.get?_insert name other type
  have hbefore := hbuiltins other found
  rw [signature?_eq] at hfound hbefore
  rw [hsame, hroutine] at hfound
  cases hoperator : builtins.operator? other with
  | none =>
      rw [hoperator] at hfound hbefore
      simp only [Option.map_none, Option.none_or] at hfound hbefore
      split at hfound
      · exact Option.some.inj hfound ▸ htype
      · exact hbefore hfound
  | some operator =>
      rw [hoperator] at hfound hbefore
      exact hbefore hfound

theorem allTypes_standard (hoperators : ∀ operator : Operator, kind operator.type)
    (hprint : kind (.function [.int] .void)) (hread : kind (.function [] .int)) :
    standard.AllTypes kind :=
  ((allTypes_operators hoperators).insert _ hprint).insert _ hread

/-- What is announced is an insertion into what was there. -/
theorem announce_cons_eq_ok {routine : String × Ty} {rest : List (String × Ty)}
    {announced : Builtins} :
    builtins.announce (routine :: rest) = .ok announced ↔
      ∃ hname, (builtins.insert routine.1 routine.2 hname).announce rest = .ok announced := by
  change (withRoutine builtins routine.1 routine.2 >>= fun next => next.announce rest) = _ ↔ _
  rw [withRoutine]
  split
  · next hname => exact ⟨fun hrest => ⟨hname, hrest⟩, fun ⟨_, hrest⟩ => hrest⟩
  · next hname =>
      refine ⟨fun hfailed => ?_, fun ⟨hlinkable, _⟩ => absurd hlinkable hname⟩
      split at hfailed <;> cases hfailed

theorem AllTypes.announce {routines : List (String × Ty)} {announced : Builtins}
    (hbuiltins : builtins.AllTypes kind) (hroutines : ∀ routine ∈ routines, kind routine.2)
    (hannounce : builtins.announce routines = .ok announced) : announced.AllTypes kind := by
  induction routines generalizing builtins with
  | nil =>
      obtain rfl := Except.ok.inj hannounce
      exact hbuiltins
  | cons first rest ih =>
      obtain ⟨hname, hrest⟩ := announce_cons_eq_ok.1 hannounce
      rw [List.forall_mem_cons] at hroutines
      exact ih (hbuiltins.insert hname hroutines.1) hroutines.2 hrest

end

/-- Announcing routines changes nothing about the operators. -/
theorem hasOperators_of_announce {routines : List (String × Ty)} {announced : Builtins}
    (hannounce : builtins.announce routines = .ok announced) :
    announced.hasOperators = builtins.hasOperators := by
  induction routines generalizing builtins with
  | nil =>
      obtain rfl := Except.ok.inj hannounce
      rfl
  | cons first rest ih =>
      obtain ⟨hname, hrest⟩ := announce_cons_eq_ok.1 hannounce
      have hsame := ih hrest
      exact hsame

/-- Whether every built-in name is that of a function of values. -/
def IsFirstOrder (builtins : Builtins) : Prop :=
  ∀ name type, builtins.signature? name = some type → type.IsFirstOrder

theorem isFirstOrder_operators : operators.IsFirstOrder :=
  allTypes_operators Operator.isFirstOrder_type

theorem isFirstOrder_standard : standard.IsFirstOrder := by
  have hprint : (Ty.function [.int] .void).IsFirstOrder := by simp [Ty.IsFirstOrder, Ty.IsValue]
  have hread : (Ty.function [] .int).IsFirstOrder := by simp [Ty.IsFirstOrder, Ty.IsValue]
  exact allTypes_standard Operator.isFirstOrder_type hprint hread

theorem IsFirstOrder.announce {routines : List (String × Ty)} {announced : Builtins}
    (hbuiltins : builtins.IsFirstOrder)
    (hroutines : ∀ routine ∈ routines, routine.2.IsFirstOrder)
    (hannounce : builtins.announce routines = .ok announced) : announced.IsFirstOrder :=
  AllTypes.announce hbuiltins hroutines hannounce

end Builtins

end WhileCompiler
