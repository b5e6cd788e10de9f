import WhileCompiler.Proofs.Typing.BuiltinNames
import WhileCompiler.Proofs.Typing.Checking

/-!
# The checker decides the rules of typing

What follows the rules is accepted as well, so that the checker and the judgement agree on every
program, whatever its names are and whichever functions are built in.  The scopes after a check show
the context that the rules derive.
-/

namespace WhileCompiler

theorem firstMisfit_self (name : String) (number : Nat) (types : List Ty) :
    firstMisfit name number types types = none := by
  induction types generalizing number with
  | nil => rfl
  | cons type rest ih =>
      have hfits : type.fits type = true := decide_eq_true rfl
      rw [firstMisfit, if_pos hfits, ih]

theorem callType_of_lookup? {scopes : Scopes Ty} {name : String} {given : List Ty} {result : Ty}
    (hlookup : scopes.lookup? name = some (.function given result)) :
    callType scopes name given = .ok result := by
  rw [callType, hlookup]
  simp only [if_true, firstMisfit_self]

namespace Expr

/-! ## Expressions -/

variable {scopes : Scopes Ty}

mutual

theorem typeOf_of_hasType {expression : Expr} {type : Ty}
    (htyped : expression.HasType scopes.lookup? type) : expression.typeOf scopes = .ok type := by
  cases htyped with
  | int => rfl
  | bool => rfl
  | var hname => rw [typeOf, hname]
  | unary hoperand hfunction =>
      rw [typeOf, typeOf_of_hasType hoperand]
      exact callType_of_lookup? hfunction
  | binary hleft hright hfunction =>
      rw [typeOf, typeOf_of_hasType hleft, typeOf_of_hasType hright]
      exact callType_of_lookup? hfunction
  | call harguments hfunction =>
      rw [typeOf, typesOf_of_haveTypes harguments]
      exact callType_of_lookup? hfunction

theorem typesOf_of_haveTypes {expressions : List Expr} {types : List Ty}
    (htyped : HaveTypes scopes.lookup? expressions types) :
    typesOf scopes expressions = .ok types := by
  cases htyped with
  | nil => rfl
  | cons hfirst hrest => rw [typesOf, typeOf_of_hasType hfirst, typesOf_of_haveTypes hrest]

end

theorem typeOf_eq_ok_iff {expression : Expr} {type : Ty} :
    expression.typeOf scopes = .ok type ↔ expression.HasType scopes.lookup? type :=
  ⟨hasType_of_typeOf, typeOf_of_hasType⟩

/-- No context gives an expression two types: the name that is called says what the result is. -/
theorem HasType.unique {context : Context} {expression : Expr} {type other : Ty}
    (htyped : expression.HasType context type) (hother : expression.HasType context other) :
    type = other := by
  have hresult {name : String} {parameters parameters' : List Ty}
      (hfunction : context name = some (.function parameters type))
      (hfunction' : context name = some (.function parameters' other)) : type = other :=
    (Ty.function.inj (Option.some.inj (hfunction.symm.trans hfunction'))).2
  cases htyped with
  | int => cases hother; rfl
  | bool => cases hother; rfl
  | var hname =>
      cases hother with
      | var hname' => exact Option.some.inj (hname.symm.trans hname')
  | unary _ hfunction =>
      cases hother with
      | unary _ hfunction' => exact hresult hfunction hfunction'
  | binary _ _ hfunction =>
      cases hother with
      | binary _ _ hfunction' => exact hresult hfunction hfunction'
  | call _ hfunction =>
      cases hother with
      | call _ hfunction' => exact hresult hfunction hfunction'

end Expr

namespace Stmt

/-! ## Statements -/

mutual

/-- A statement that follows the rules is accepted, and the scopes after it show the context that
the rules derive. -/
theorem check_of_wellTyped {statement : Stmt} {scopes : Scopes Ty} {after : Context}
    (htyped : WellTyped scopes.lookup? statement after) :
    ∃ last, statement.check scopes = (.ok (), last) ∧ last.lookup? = after := by
  cases htyped with
  | empty => exact ⟨scopes, rfl, rfl⟩
  | block hbody =>
      exact ⟨scopes, check_inFrame_of_allWellTyped hbody, rfl⟩
  | @declaration _ name type initial hname hinitial =>
      refine ⟨scopes.declare name type, ?_, lookup?_declare_eq_extend scopes name type⟩
      have hunbound : ¬ scopes.isBound name = true := by simp [Scopes.isBound, hname]
      have hfits : type.fits type = true := decide_eq_true rfl
      rw [check, if_neg hunbound, Expr.typeOf_of_hasType hinitial]
      exact if_pos hfits
  | @assignment _ name value type hname hvalue =>
      refine ⟨scopes, ?_, rfl⟩
      have hfits : type.fits type = true := decide_eq_true rfl
      rw [check, hname]
      simp only [Expr.typeOf_of_hasType hvalue]
      exact if_pos hfits
  | conditional hcondition hthen helse =>
      refine ⟨scopes, ?_, rfl⟩
      rw [check, Expr.typeOf_of_hasType hcondition]
      simp only [check_inFrame_of_wellTyped hthen]
      exact check_inFrame_of_wellTyped helse
  | loop hcondition hbody =>
      refine ⟨scopes, ?_, rfl⟩
      rw [check, Expr.typeOf_of_hasType hcondition]
      exact check_inFrame_of_wellTyped hbody
  | expression hvalue =>
      refine ⟨scopes, ?_, rfl⟩
      rw [check, Expr.typeOf_of_hasType hvalue]

theorem check_inFrame_of_wellTyped {statement : Stmt} {scopes : Scopes Ty} {after : Context}
    (htyped : WellTyped scopes.lookup? statement after) :
    inFrame statement.check scopes = (.ok (), scopes) := by
  have hpushed : WellTyped scopes.push.lookup? statement after := htyped
  obtain ⟨inner, hinner, -⟩ := check_of_wellTyped hpushed
  rw [inFrame_check, hinner]

theorem checkAll_of_allWellTyped {statements : List Stmt} {scopes : Scopes Ty} {after : Context}
    (htyped : AllWellTyped scopes.lookup? statements after) :
    ∃ last, checkAll statements scopes = (.ok (), last) ∧ last.lookup? = after := by
  cases htyped with
  | nil => exact ⟨scopes, rfl, rfl⟩
  | cons hfirst hrest =>
      obtain ⟨between, hcheck, rfl⟩ := check_of_wellTyped hfirst
      obtain ⟨last, hlast, hafter⟩ := checkAll_of_allWellTyped hrest
      refine ⟨last, ?_, hafter⟩
      rw [checkAll, hcheck]
      exact hlast

theorem check_inFrame_of_allWellTyped {statements : List Stmt} {scopes : Scopes Ty}
    {after : Context} (htyped : AllWellTyped scopes.lookup? statements after) :
    inFrame (checkAll statements) scopes = (.ok (), scopes) := by
  have hpushed : AllWellTyped scopes.push.lookup? statements after := htyped
  obtain ⟨inner, hinner, -⟩ := checkAll_of_allWellTyped hpushed
  rw [inFrame_checkAll, hinner]

end

/-- The checker accepts exactly the programs that follow the rules in the context of the built-in
names, and ends in the context that the rules derive.  Whatever it rejects is reported as a fault of
typing, and the type of an expression is the only one that the rules give it. -/
theorem checkProgram_decides_wellTyped (builtins : Builtins) (program : Stmt) :
    (program.checkProgram builtins = .ok () ↔
        ∃ after, WellTyped builtins.signature? program after) ∧
      (∀ after, WellTyped builtins.signature? program after →
        (program.check (.ofRoot builtins.signatures)).2.lookup? = after) ∧
      (∀ error, program.checkProgram builtins = .error error →
        ∃ message, error.diagnostic = .typing message) ∧
      ∀ (context : Context) (expression : Expr) (type : Ty), expression.HasType context type →
        ∀ other, expression.HasType context other ↔ other = type := by
  have hchecked {after : Context} (htyped : WellTyped builtins.signature? program after) :
      ∃ last, program.check (.ofRoot builtins.signatures) = (.ok (), last) ∧
        last.lookup? = after :=
    check_of_wellTyped (lookup?_ofRoot_signatures builtins ▸ htyped)
  refine ⟨⟨wellTyped_of_checkProgram, ?_⟩, ?_, ?_, ?_⟩
  · rintro ⟨after, htyped⟩
    obtain ⟨last, hcheck, -⟩ := hchecked htyped
    rw [checkProgram, hcheck]
  · intro after htyped
    obtain ⟨last, hcheck, hafter⟩ := hchecked htyped
    rw [hcheck]
    exact hafter
  · intro error _
    exact ⟨error.message, rfl⟩
  · intro context expression type htyped other
    refine ⟨fun hother => hother.unique htyped, ?_⟩
    rintro rfl
    exact htyped

/-- A variable that holds a function can be called. -/
example : checkProgram (.block [
      .declaration "next" (.function [.int] .int) (.var "successor"),
      .loop (.binary "<" (.call "next" [.int 1]) (.int 5)) .empty])
    (Builtins.operators.insert "successor" (.function [.int] .int) (by decide)) = .ok () := rfl

end Stmt

end WhileCompiler
