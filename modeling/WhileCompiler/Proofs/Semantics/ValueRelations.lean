import WhileCompiler.Proofs.Semantics.Agreement
import WhileCompiler.Semantics.Evaluation
import WhileCompiler.Typing.Judgement

/-!
# Relations between values

Two evaluations of one expression give related values, if they read related variables and if calls
take related arguments to related results.  What values are related depends on their types.
-/

namespace WhileCompiler

open Semantics

/-- When two numbers stand for the same value of a type. -/
abbrev ValueRelation := Ty → Int32 → Int32 → Prop

namespace ValueRelation

/-- Numbers are compared by themselves, whatever their type is. -/
def equality : ValueRelation :=
  fun _ left right => left = right

/-- Values of several types are related one by one. -/
def All (related : ValueRelation) : List Ty → List Int32 → List Int32 → Prop
  | [], [], [] => True
  | type :: types, left :: lefts, right :: rights =>
    related type left right ∧ related.All types lefts rights
  | _, _, _ => False

theorem eq_of_all_equality {types : List Ty} {lefts rights : List Int32}
    (hrelated : equality.All types lefts rights) : lefts = rights := by
  induction types generalizing lefts rights with
  | nil =>
      cases lefts with
      | nil =>
          cases rights with
          | nil => rfl
          | cons right rights => exact hrelated.elim
      | cons left lefts => exact hrelated.elim
  | cons type types ih =>
      cases lefts with
      | nil => exact hrelated.elim
      | cons left lefts =>
          cases rights with
          | nil => exact hrelated.elim
          | cons right rights => rw [show left = right from hrelated.1, ih hrelated.2]

end ValueRelation

/-- Calls of functions that a context shows take related arguments to related results. -/
def Context.CallsRelate {σ ε : Type} (context : Context) (related : ValueRelation)
    (left right : Calls σ ε) : Prop :=
  ∀ function parameters result, context function = some (.function parameters result) →
    ∀ lefts rights state, related.All parameters lefts rights →
      (left.invoke function lefts state).Matches (related result)
        (right.invoke function rights state)

/-- What two meanings of calls need so that programs do the same with both: literals are related to
themselves, tests tell no related values apart, and calls relate wherever expressions may stand. -/
structure Corresponds {σ ε : Type} (related : ValueRelation) (invariant : Context → Prop)
    (left right : Calls σ ε) : Prop where
  int : ∀ value, related .int value value
  bool : ∀ value, related .bool (flag value) (flag value)
  test : ∀ first second, related .bool first second → (first = 0 ↔ second = 0)
  calls : ∀ context, invariant context → context.CallsRelate related left right

theorem corresponds_equality {σ ε : Type} (invariant : Context → Prop) (calls : Calls σ ε) :
    Corresponds .equality invariant calls calls where
  int _ := rfl
  bool _ := rfl
  test := by
    rintro first _ rfl
    rfl
  calls := by
    intro context _ function parameters result _ lefts rights state hrelated
    rw [ValueRelation.eq_of_all_equality hrelated]
    exact .rfl _

namespace Expr

variable {σ ε : Type} {context : Context} {related : ValueRelation} {left right : Calls σ ε}
  {read other : String → Int32}

mutual

/-- Evaluation keeps values related, if the calls do and the variables that it reads are related. -/
theorem HasType.matches_eval {expression : Expr} {type : Ty}
    (htyped : expression.HasType context type) {invariant : Context → Prop}
    (hcalls : Corresponds related invariant left right) (hcontext : invariant context)
    (hread : ∀ name type, context name = some type → related type (read name) (other name))
    (state : σ) :
    (expression.eval left read state).Matches (related type)
      (expression.eval right other state) := by
  cases expression with
  | int value =>
      cases htyped
      exact .done (hcalls.int value)
  | bool value =>
      cases htyped
      exact .done (hcalls.bool value)
  | var name =>
      cases htyped with
      | var hname => exact .done (hread name type hname)
  | unary operator operand =>
      cases htyped with
      | unary hoperand hfunction =>
          refine (hoperand.matches_eval hcalls hcontext hread state).bind ?_
          intro first second state hrelated
          exact hcalls.calls context hcontext _ _ _ hfunction _ _ state ⟨hrelated, trivial⟩
  | binary operator first second =>
      cases htyped with
      | binary hfirst hsecond hfunction =>
          refine (hfirst.matches_eval hcalls hcontext hread state).bind ?_
          intro firstLeft firstRight state hrelated
          refine (hsecond.matches_eval hcalls hcontext hread state).bind ?_
          intro secondLeft secondRight state hrelated'
          exact hcalls.calls context hcontext _ _ _ hfunction _ _ state
            ⟨hrelated, hrelated', trivial⟩
  | call function arguments =>
      cases htyped with
      | call harguments hfunction =>
          refine (harguments.matches_evalAll hcalls hcontext hread state).bind ?_
          intro lefts rights state hrelated
          exact hcalls.calls context hcontext _ _ _ hfunction _ _ state hrelated

theorem HaveTypes.matches_evalAll {expressions : List Expr} {types : List Ty}
    (htyped : HaveTypes context expressions types) {invariant : Context → Prop}
    (hcalls : Corresponds related invariant left right) (hcontext : invariant context)
    (hread : ∀ name type, context name = some type → related type (read name) (other name))
    (state : σ) :
    (evalAll left read expressions state).Matches (related.All types)
      (evalAll right other expressions state) := by
  cases expressions with
  | nil =>
      cases htyped
      exact .done trivial
  | cons first rest =>
      cases htyped with
      | cons hfirst hrest =>
          refine (hfirst.matches_eval hcalls hcontext hread state).bind ?_
          intro value value' state hrelated
          refine (hrest.matches_evalAll hcalls hcontext hread state).bind ?_
          intro values values' state hrelated'
          exact .done ⟨hrelated, hrelated'⟩

end

end Expr

end WhileCompiler
