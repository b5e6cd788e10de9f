import WhileCompiler.Proofs.Semantics.ScopeErasure
import WhileCompiler.Proofs.Typing.BuiltinNames

/-!
# The standard functions, as programs see them

A program has truth values, which `!` turns around, and it has nothing that printing could be said
to give.  The calls of a machine know neither of this: there `!` flips a bit, and printing leaves
some number behind.  A program that has been checked cannot tell the difference.
-/

namespace WhileCompiler

namespace Semantics

/-- What an operator gives to a program, in which `!` stands for negation. -/
def applyLogically : Operator → List Int32 → Except ConsoleError Int32
  | .not, [value] => .ok (flag (value = 0))
  | operator, arguments => applyOperator operator arguments

/-- The standard functions as programs see them.  Printing gives nothing, for which zero stands. -/
def Console.meaning : Calls Console ConsoleError :=
  fun function arguments console =>
    match Operator.ofName? function with
    | some operator => (applyLogically operator arguments, console)
    | none => Console.calls (fun _ => 0) function arguments console

end Semantics

open Semantics

namespace ValueRelation

/-- Truth values are flags, and printing may give anything. -/
def standard : ValueRelation
  | .bool, left, right => ∃ value, left = flag value ∧ right = flag value
  | .void, _, _ => True
  | .int, left, right | .function _ _, left, right => left = right

variable {lefts rights : List Int32}

theorem eq_nil_of_all {related : ValueRelation} (hrelated : related.All [] lefts rights) :
    lefts = [] ∧ rights = [] := by
  cases lefts with
  | nil =>
      cases rights with
      | nil => exact ⟨rfl, rfl⟩
      | cons right rights => exact hrelated.elim
  | cons left lefts => exact hrelated.elim

theorem all_cons {related : ValueRelation} {type : Ty} {types : List Ty}
    (hrelated : related.All (type :: types) lefts rights) :
    ∃ left lefts' right rights', lefts = left :: lefts' ∧ rights = right :: rights' ∧
      related type left right ∧ related.All types lefts' rights' := by
  cases lefts with
  | nil => exact hrelated.elim
  | cons left lefts =>
      cases rights with
      | nil => exact hrelated.elim
      | cons right rights => exact ⟨left, lefts, right, rights, rfl, rfl, hrelated.1, hrelated.2⟩

theorem all_int (hrelated : standard.All [.int] lefts rights) :
    ∃ value, lefts = [value] ∧ rights = [value] := by
  obtain ⟨value, _, _, _, rfl, rfl, rfl, hnone⟩ := all_cons hrelated
  obtain ⟨rfl, rfl⟩ := eq_nil_of_all hnone
  exact ⟨value, rfl, rfl⟩

theorem all_bool (hrelated : standard.All [.bool] lefts rights) :
    ∃ value, lefts = [flag value] ∧ rights = [flag value] := by
  obtain ⟨_, _, _, _, rfl, rfl, ⟨value, rfl, rfl⟩, hnone⟩ := all_cons hrelated
  obtain ⟨rfl, rfl⟩ := eq_nil_of_all hnone
  exact ⟨value, rfl, rfl⟩

theorem all_int_int (hrelated : standard.All [.int, .int] lefts rights) :
    ∃ first second, lefts = [first, second] ∧ rights = [first, second] := by
  obtain ⟨first, _, _, _, rfl, rfl, rfl, hrest⟩ := all_cons hrelated
  obtain ⟨second, rfl, rfl⟩ := all_int hrest
  exact ⟨first, second, rfl, rfl⟩

end ValueRelation

/-! ## Contexts of programs -/

/-- Every name is a variable of a program or else a standard one, and no standard one is missing. -/
structure Context.IsStandard (context : Context) : Prop where
  names : ∀ name type, context name = some type →
    type = .int ∨ type = .bool ∨ Builtins.standard.signature? name = some type
  kept : Context.IsKeptIn Builtins.standard.signature? context

theorem Context.IsStandard.function {context : Context} (hcontext : context.IsStandard)
    {name : String} {parameters : List Ty} {result : Ty}
    (hname : context name = some (.function parameters result)) :
    Builtins.standard.signature? name = some (.function parameters result) := by
  rcases hcontext.names name _ hname with htype | htype | hstandard
  · cases htype
  · cases htype
  · exact hstandard

theorem isStandard_signature? : Context.IsStandard Builtins.standard.signature? :=
  ⟨fun _ _ hname => .inr (.inr hname), fun _ _ hname => hname⟩

theorem Stmt.keptBy_isStandard {actions : List Action}
    (hdeclared : ∀ name type value, .declare name type value ∈ actions →
      type = .int ∨ type = .bool) : KeptBy Context.IsStandard actions := by
  intro context name type value hmem hcontext hnone
  refine ⟨fun other found hother => ?_, fun other found hother => ?_⟩
  · by_cases heq : other = name
    · rw [heq, Context.extend, if_pos rfl] at hother
      obtain rfl := Option.some.inj hother
      rcases hdeclared name type value hmem with htype | htype
      · exact .inl htype
      · exact .inr (.inl htype)
    · rw [Context.extend_of_ne heq] at hother
      exact hcontext.names other found hother
  · exact Context.extend_of_some hnone (hcontext.kept other found hother)

/-- What a standard name stands for. -/
inductive IsStandardFunction : String → Ty → Prop
  | operator {name : String} {operator : Operator} :
      Operator.ofName? name = some operator → IsStandardFunction name operator.type
  | print : IsStandardFunction "printInt" (.function [.int] .void)
  | read : IsStandardFunction "readInt" (.function [] .int)

theorem isStandardFunction_of_signature? {name : String} {type : Ty}
    (hname : Builtins.standard.signature? name = some type) : IsStandardFunction name type := by
  have hroutines : Builtins.standard.routines.get? name =
      if name = "readInt" then some (.function [] .int)
      else if name = "printInt" then some (.function [.int] .void) else none := by
    refine (Bindings.get?_insert _ _ _ _).trans ?_
    congr 1
    exact Bindings.get?_insert _ _ _ _
  have hoperators : Builtins.standard.operator? name = Operator.ofName? name := rfl
  rw [Builtins.signature?_eq, hroutines, hoperators] at hname
  cases hoperator : Operator.ofName? name with
  | some operator =>
      rw [hoperator] at hname
      obtain rfl := Option.some.inj hname
      exact .operator hoperator
  | none =>
      rw [hoperator] at hname
      simp only [Option.map_none, Option.none_or] at hname
      split at hname
      · next heq =>
          obtain rfl := Option.some.inj hname
          exact heq ▸ .read
      · split at hname
        · next heq =>
            obtain rfl := Option.some.inj hname
            exact heq ▸ .print
        · cases hname

/-! ## Related calls -/

section

variable {leftByPrint : Nat → Int32} {console : Console} {lefts rights : List Int32}

theorem matches_operator {function : String} {operator : Operator}
    (hoperator : Operator.ofName? function = some operator) {parameters : List Ty} {result : Ty}
    (htype : operator.type = .function parameters result)
    (hrelated : ValueRelation.standard.All parameters lefts rights) :
    (Console.meaning.invoke function lefts console).Matches (ValueRelation.standard result)
      ((Console.calls leftByPrint).invoke function rights console) := by
  simp only [Calls.invoke, Console.meaning, Console.calls, hoperator]
  cases operator with
  | add | subtract | multiply =>
      obtain ⟨rfl, rfl⟩ := Ty.function.inj htype
      obtain ⟨first, second, rfl, rfl⟩ := ValueRelation.all_int_int hrelated
      exact .done rfl
  | divide | remainder =>
      obtain ⟨rfl, rfl⟩ := Ty.function.inj htype
      obtain ⟨first, second, rfl, rfl⟩ := ValueRelation.all_int_int hrelated
      simp only [applyLogically, applyOperator]
      by_cases hzero : second = 0
      · rw [if_pos hzero]
        exact .failed
      · rw [if_neg hzero]
        exact .done rfl
  | compare condition =>
      obtain ⟨rfl, rfl⟩ := Ty.function.inj htype
      obtain ⟨first, second, rfl, rfl⟩ := ValueRelation.all_int_int hrelated
      cases condition <;> exact .done ⟨_, rfl, rfl⟩
  | not =>
      obtain ⟨rfl, rfl⟩ := Ty.function.inj htype
      obtain ⟨value, rfl, rfl⟩ := ValueRelation.all_bool hrelated
      cases value with
      | false => exact .done ⟨true, rfl, rfl⟩
      | true => exact .done ⟨false, rfl, rfl⟩
  | negate =>
      obtain ⟨rfl, rfl⟩ := Ty.function.inj htype
      obtain ⟨value, rfl, rfl⟩ := ValueRelation.all_int hrelated
      exact .done rfl

theorem matches_print (hrelated : ValueRelation.standard.All [.int] lefts rights) :
    (Console.meaning.invoke "printInt" lefts console).Matches (ValueRelation.standard .void)
      ((Console.calls leftByPrint).invoke "printInt" rights console) := by
  obtain ⟨value, rfl, rfl⟩ := ValueRelation.all_int hrelated
  exact .done trivial

theorem matches_read (hrelated : ValueRelation.standard.All [] lefts rights) :
    (Console.meaning.invoke "readInt" lefts console).Matches (ValueRelation.standard .int)
      ((Console.calls leftByPrint).invoke "readInt" rights console) := by
  obtain ⟨rfl, rfl⟩ := ValueRelation.eq_nil_of_all hrelated
  obtain ⟨input, output⟩ := console
  cases input with
  | nil => exact .failed
  | cons value rest => exact .done rfl

end

/-- Programs do the same with the standard functions and with the calls of a machine. -/
theorem corresponds_standard (leftByPrint : Nat → Int32) :
    Corresponds .standard Context.IsStandard Console.meaning (Console.calls leftByPrint) where
  int _ := rfl
  bool value := ⟨value, rfl, rfl⟩
  test := by
    rintro _ _ ⟨value, rfl, rfl⟩
    rfl
  calls := by
    intro context hcontext function parameters result hfunction lefts rights console hrelated
    have hstandard := isStandardFunction_of_signature? (hcontext.function hfunction)
    generalize htype : Ty.function parameters result = type at hstandard
    cases hstandard with
    | operator hoperator => exact matches_operator hoperator htype.symm hrelated
    | print =>
        obtain ⟨rfl, rfl⟩ := Ty.function.inj htype
        exact matches_print hrelated
    | read =>
        obtain ⟨rfl, rfl⟩ := Ty.function.inj htype
        exact matches_read hrelated

end WhileCompiler
