import WhileCompiler.Proofs.Asm.Renaming
import WhileCompiler.Proofs.CheckedPrograms
import WhileCompiler.Proofs.Ir.Temporaries
import WhileCompiler.Proofs.Typing.Renaming

/-!
# The names of variables

What the variables of a program are called shows nowhere in its listing.  A renaming that keeps them
apart from each other and from the built-in names leads to a program that is accepted as well, with
the same listing.
-/

namespace WhileCompiler

open Asm Ir

mutual

/-- Where an expression has a type, its functions have types of functions. -/
theorem Expr.HasType.functions {context : Context} {expression : Expr} {type : Ty}
    (htyped : expression.HasType context type) :
    ∀ name ∈ expression.functions, ∃ parameters result,
      context name = some (.function parameters result) := by
  cases expression with
  | int value => exact fun _ hname => absurd hname List.not_mem_nil
  | bool value => exact fun _ hname => absurd hname List.not_mem_nil
  | var name => exact fun _ hname => absurd hname List.not_mem_nil
  | unary operator operand =>
      cases htyped with
      | unary hoperand hoperator =>
          exact List.forall_mem_cons.2 ⟨⟨_, _, hoperator⟩, hoperand.functions⟩
  | binary operator left right =>
      cases htyped with
      | binary hleft hright hoperator =>
          exact List.forall_mem_cons.2 ⟨⟨_, _, hoperator⟩,
            List.forall_mem_append.2 ⟨hleft.functions, hright.functions⟩⟩
  | call function arguments =>
      cases htyped with
      | call harguments hfunction =>
          exact List.forall_mem_cons.2 ⟨⟨_, _, hfunction⟩, harguments.functions⟩

theorem Expr.HaveTypes.functions {context : Context} {expressions : List Expr} {types : List Ty}
    (htyped : HaveTypes context expressions types) :
    ∀ name ∈ functionsAll expressions, ∃ parameters result,
      context name = some (.function parameters result) := by
  cases expressions with
  | nil => exact fun _ hname => absurd hname List.not_mem_nil
  | cons first rest =>
      cases htyped with
      | cons hfirst hrest =>
          exact List.forall_mem_append.2 ⟨hfirst.functions, hrest.functions⟩

end

/-- A renaming that treats temporaries as what they are. -/
def Ir.besideTemporaries (f : String → String) (name : String) : String :=
  if IsTemporary name then name else f name

namespace Stmt

/-- A renaming of the variables of a program that keeps them apart from each other and from the
built-in names. -/
structure IsRenaming (builtins : Builtins) (program : Stmt) (f : String → String) : Prop where
  injective : Set.InjOn f {name | name ∈ program.vars}
  builtin : ∀ name, (builtins.signature? name).isSome → f name = name
  identifier : ∀ name ∈ program.vars, builtins.signature? name = none →
    Text.isIdentifier (f name).toList = true
  free : ∀ name ∈ program.vars, builtins.signature? name = none →
    builtins.signature? (f name) = none

/-- The variables of a program and the built-in names. -/
def namesWith (builtins : Builtins) (program : Stmt) : Set String :=
  {name | name ∈ program.vars ∨ (builtins.signature? name).isSome}

theorem lifts_besideTemporaries {source : String} {program : Stmt}
    (hparse : Compiler.parse source = .ok program) (builtins : Builtins) (f : String → String) :
    Lifts f (besideTemporaries f) (program.namesWith builtins) where
  vars name hname := by
    apply if_neg
    rcases hname with hvar | hbuiltin
    · exact not_isTemporary_of_parse hparse hvar
    · exact Builtins.not_isTemporary_of_signature? hbuiltin
  temporaries _ htemporary := if_pos htemporary

section

variable {builtins : Builtins} {program : Stmt} {f : String → String} {source : String}
  (hrenaming : program.IsRenaming builtins f)

include hrenaming

theorem signature?_rename {name : String} (hname : name ∈ program.namesWith builtins) :
    builtins.signature? (f name) = builtins.signature? name := by
  cases hsignature : builtins.signature? name with
  | none =>
      have hvar : name ∈ program.vars := hname.resolve_right (by simp [hsignature])
      exact hrenaming.free name hvar hsignature
  | some type => rw [hrenaming.builtin name (Option.isSome_of_eq_some hsignature), hsignature]

theorem injOn_rename : Set.InjOn f (program.namesWith builtins) := by
  intro name hname other hother heq
  have hsame : builtins.signature? name = builtins.signature? other := by
    rw [← signature?_rename hrenaming hname, heq, signature?_rename hrenaming hother]
  cases hsignature : builtins.signature? other with
  | none =>
      rw [hsignature] at hsame
      exact hrenaming.injective (hname.resolve_right (by simp [hsame]))
        (hother.resolve_right (by simp [hsignature])) heq
  | some type =>
      rw [hsignature] at hsame
      rwa [hrenaming.builtin name (Option.isSome_of_eq_some hsame),
        hrenaming.builtin other (Option.isSome_of_eq_some hsignature)] at heq

theorem not_isTemporary_rename {name : String} (hname : name ∈ program.vars) :
    ¬ IsTemporary (f name) := by
  cases hsignature : builtins.signature? name with
  | none =>
      exact Builtins.not_isTemporary_of_isIdentifier (hrenaming.identifier name hname hsignature)
  | some type =>
      have hbuiltin := Option.isSome_of_eq_some hsignature
      rw [hrenaming.builtin name hbuiltin]
      exact Builtins.not_isTemporary_of_signature? hbuiltin

theorem renamesAll_of_checked (hparse : Compiler.parse source = .ok program)
    (hcheck : program.checkProgram builtins = .ok ()) :
    RenamesAll f (program.namesWith builtins) program.actions := by
  obtain ⟨after, htyped⟩ := wellTyped_of_checkProgram hcheck
  have hdeclared := (isSpelled_of_parse hparse).declaresValues
  have hstart : Context.Covers builtins (fun _ => True) builtins.signature? :=
    ⟨fun _ _ _ _ => trivial, fun _ _ hfunction _ => hfunction⟩
  have hactions := (htyped.typedUnder hstart (keptBy_covers hdeclared fun _ _ => trivial)).2
  intro action haction
  obtain ⟨context, hcovers, hwellTyped⟩ := hactions action haction
  obtain ⟨type, hvalue⟩ := hwellTyped.hasType
  refine ⟨fun name hname => .inl (mem_vars_of_action haction hname), fun name hname => ?_⟩
  -- A program cannot declare functions, so what it calls is built in.
  obtain ⟨parameters, result, hfunction⟩ := hvalue.functions name hname
  have hbuiltin := Option.isSome_of_eq_some (hcovers.functions name _ hfunction id)
  exact ⟨.inr hbuiltin, hrenaming.builtin name hbuiltin⟩

/-- The variables in the code of a program stay apart. -/
theorem injOn_besideTemporaries (hparse : Compiler.parse source = .ok program) :
    Set.InjOn (besideTemporaries f)
      {name | name ∈ program.vars ∨ name ∈ assigned program.toIr} := by
  have hvar {name : String} (hname : name ∈ program.vars) : besideTemporaries f name = f name :=
    if_neg (not_isTemporary_of_parse hparse hname)
  have htemporary {name : String} (hname : IsTemporary name) : besideTemporaries f name = name :=
    if_pos hname
  have hkinds {name : String} (hname : name ∈ program.vars ∨ name ∈ assigned program.toIr) :
      name ∈ program.vars ∨ IsTemporary name :=
    hname.elim .inl fun hassigned =>
      (mem_targets_or_isTemporary hassigned).imp_left mem_vars_of_mem_targets
  intro name hname other hother heq
  -- Variables are apart from temporaries before and after they are renamed.
  rcases hkinds hname with hname | hname
  · rcases hkinds hother with hother | hother
    · rw [hvar hname, hvar hother] at heq
      exact hrenaming.injective hname hother heq
    · rw [hvar hname, htemporary hother] at heq
      exact absurd (heq ▸ hother) (not_isTemporary_rename hrenaming hname)
  · rcases hkinds hother with hother | hother
    · rw [htemporary hname, hvar hother] at heq
      exact absurd (heq ▸ hname) (not_isTemporary_rename hrenaming hother)
    · rwa [htemporary hname, htemporary hother] at heq

end

/-- The names of variables do not influence the output.  A program with renamed variables is
accepted if the program is, and it has the same listing, or else the same fault about the renamed
variable. -/
theorem renamed_program_has_same_listing (builtins : Builtins) (source : String) (program : Stmt)
    (f : String → String) (hparse : Compiler.parse source = .ok program)
    (hcheck : program.checkProgram builtins = .ok ()) (hrenaming : program.IsRenaming builtins f) :
    (program.rename f).checkProgram builtins = .ok () ∧
      listing builtins (program.rename f).toIr =
        (listing builtins program.toIr).mapError (EmissionError.rename f) := by
  have hnames := renamesAll_of_checked hrenaming hparse hcheck
  constructor
  · have hrenamed := checkProgram_rename (injOn_rename hrenaming) hnames fun name hname =>
      signature?_rename hrenaming hname
    rw [hrenamed, hcheck, mapError_ok]
  · rw [toIr_rename (lifts_besideTemporaries hparse builtins f) hnames]
    apply listing_rename (injOn_besideTemporaries hrenaming hparse)
    · exact fun name hassigned => .inr hassigned
    · exact program.readsVars_toIr
    · intro name hname hassigned
      exact if_neg (not_isTemporary_of_parse hparse (hname.resolve_right hassigned))

/-- A source with a variable around a loop and another one inside it. -/
def descendingSource : String :=
  "\x7bx:int:=readInt();while 0<x do\x7by:int:=x-1;x:=y;\x7dprintInt(x);\x7d"

def descending : Stmt :=
  .block [.declaration "x" .int (.call "readInt" []),
    .loop (.binary "<" (.int 0) (.var "x"))
      (.block [.declaration "y" .int (.binary "-" (.var "x") (.int 1)),
        .assignment "x" (.var "y")]),
    .expression (.call "printInt" [.var "x"])]

theorem parse_descending : Compiler.parse descendingSource = .ok descending := by
  cbv

/-- Gives a variable the name of the other one, which gets that of a label. -/
def passedOn (name : String) : String :=
  if name = "x" then "y" else if name = "y" then "whileEnd1" else name

theorem mem_vars_descending {name : String} (hname : name ∈ descending.vars) :
    name = "x" ∨ name = "y" := by
  simp only [descending, vars, varsAll, Expr.vars, Expr.varsAll, List.mem_append, List.mem_cons,
    List.not_mem_nil, or_false, false_or] at hname
  tauto

theorem isRenaming_passedOn : descending.IsRenaming .standard passedOn where
  injective := by
    intro name hname other hother heq
    rcases mem_vars_descending hname with rfl | rfl <;>
      rcases mem_vars_descending hother with rfl | rfl
    · rfl
    · exact absurd heq (by decide)
    · exact absurd heq (by decide)
    · rfl
  builtin name hbuiltin := by
    have hx : name ≠ "x" := by
      rintro rfl
      exact absurd hbuiltin (by decide)
    have hy : name ≠ "y" := by
      rintro rfl
      exact absurd hbuiltin (by decide)
    rw [passedOn, if_neg hx, if_neg hy]
  identifier name hname _ := by
    rcases mem_vars_descending hname with rfl | rfl <;> decide
  free name hname _ := by
    rcases mem_vars_descending hname with rfl | rfl <;> decide

theorem renamed_program_has_same_listing_descending :
    Compiler.parse descendingSource = .ok descending ∧
      descending.checkProgram .standard = .ok () ∧ descending.IsRenaming .standard passedOn ∧
      (descending.rename passedOn).checkProgram .standard = .ok () ∧
      listing .standard (descending.rename passedOn).toIr =
        (listing .standard descending.toIr).mapError (EmissionError.rename passedOn) := by
  have hcheck : descending.checkProgram .standard = .ok () := by rfl
  exact ⟨parse_descending, hcheck, isRenaming_passedOn,
    renamed_program_has_same_listing .standard descendingSource descending passedOn
      parse_descending hcheck isRenaming_passedOn⟩

end Stmt

end WhileCompiler
