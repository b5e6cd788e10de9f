import WhileCompiler.Proofs.Typing.Verdicts
import WhileCompiler.Typing.Judgement

/-!
# What the checker accepts is well typed

A check that succeeds follows the rules of typing, in the context of the names that its scopes show,
and the scopes behind it show the context that the rules derive.
-/

namespace WhileCompiler

/-- Arguments that all fit are of the types of the parameters. -/
theorem eq_of_firstMisfit {name : String} {number : Nat} {parameters given : List Ty}
    (hlength : parameters.length = given.length)
    (hmisfit : firstMisfit name number parameters given = none) : given = parameters := by
  induction parameters generalizing number given with
  | nil => exact List.eq_nil_of_length_eq_zero hlength.symm
  | cons expected parameters ih =>
      cases given with
      | nil => cases hlength
      | cons found given =>
          rw [firstMisfit] at hmisfit
          split at hmisfit
          · next hfits =>
              have hfound : found = expected := of_decide_eq_true hfits
              rw [hfound, ih (Nat.succ.inj hlength) hmisfit]
          · cases hmisfit

theorem lookup?_of_callType {scopes : Scopes Ty} {name : String} {given : List Ty} {result : Ty}
    (hcall : callType scopes name given = .ok result) :
    scopes.lookup? name = some (.function given result) := by
  rw [callType] at hcall
  split at hcall
  · next parameters found hlookup =>
      split at hcall
      · next hlength =>
          split at hcall
          · cases hcall
          · next hmisfit =>
              obtain rfl := Except.ok.inj hcall
              rw [hlookup, eq_of_firstMisfit hlength hmisfit]
      · cases hcall
  · cases hcall

namespace Expr

variable {scopes : Scopes Ty}

mutual

theorem hasType_of_typeOf {expression : Expr} {type : Ty}
    (htype : expression.typeOf scopes = .ok type) : expression.HasType scopes.lookup? type := by
  cases expression with
  | int value =>
      obtain rfl := Except.ok.inj htype
      exact .int
  | bool value =>
      obtain rfl := Except.ok.inj htype
      exact .bool
  | var name =>
      rw [typeOf] at htype
      split at htype
      · next found hlookup =>
          obtain rfl := Except.ok.inj htype
          exact .var hlookup
      · cases htype
  | unary operator operand =>
      rw [typeOf] at htype
      split at htype
      · cases htype
      · next found hoperand =>
          exact .unary (hasType_of_typeOf hoperand) (lookup?_of_callType htype)
  | binary operator left right =>
      rw [typeOf] at htype
      split at htype
      · cases htype
      · next leftType hleft =>
          split at htype
          · cases htype
          · next rightType hright =>
              exact .binary (hasType_of_typeOf hleft) (hasType_of_typeOf hright)
                (lookup?_of_callType htype)
  | call function arguments =>
      rw [typeOf] at htype
      split at htype
      · cases htype
      · next types harguments =>
          exact .call (haveTypes_of_typesOf harguments) (lookup?_of_callType htype)

theorem haveTypes_of_typesOf {expressions : List Expr} {types : List Ty}
    (htypes : typesOf scopes expressions = .ok types) :
    HaveTypes scopes.lookup? expressions types := by
  cases expressions with
  | nil =>
      obtain rfl := Except.ok.inj htypes
      exact .nil
  | cons first rest =>
      rw [typesOf] at htypes
      split at htypes
      · cases htypes
      · next type hfirst =>
          split at htypes
          · cases htypes
          · next others hrest =>
              obtain rfl := Except.ok.inj htypes
              exact .cons (hasType_of_typeOf hfirst) (haveTypes_of_typesOf hrest)

end

end Expr

namespace Stmt

theorem lookup?_declare_eq_extend (scopes : Scopes Ty) (name : String) (type : Ty) :
    (scopes.declare name type).lookup? = Context.extend scopes.lookup? name type := by
  funext other
  exact scopes.lookup?_declare name other type

mutual

/-- A statement that is accepted has a derivation, between the contexts that its scopes show. -/
theorem wellTyped_of_check {statement : Stmt} {scopes after : Scopes Ty}
    (hcheck : statement.check scopes = (.ok (), after)) :
    WellTyped scopes.lookup? statement after.lookup? := by
  have hverdict := hcheck ▸ verdict_check statement scopes
  match statement, hverdict with
  | .empty, .empty => exact .empty
  | .block _, .block hbody =>
      have htyped := allWellTyped_of_checkAll (Prod.ext hbody rfl)
      exact .block htyped
  | .declaration name type _, .declared hname hinitial =>
      rw [lookup?_declare_eq_extend]
      exact .declaration hname (Expr.hasType_of_typeOf hinitial)
  | .assignment _ _, .assigned hname hvalue =>
      exact .assignment hname (Expr.hasType_of_typeOf hvalue)
  | .conditional _ _ _, .conditional hcondition hthen helse =>
      have hthenBranch := wellTyped_of_check (Prod.ext hthen rfl)
      have helseBranch := wellTyped_of_check (Prod.ext helse rfl)
      exact .conditional (Expr.hasType_of_typeOf hcondition) hthenBranch helseBranch
  | .loop _ _, .loop hcondition hbody =>
      have htyped := wellTyped_of_check (Prod.ext hbody rfl)
      exact .loop (Expr.hasType_of_typeOf hcondition) htyped
  | .expression _, .expression hvalue => exact .expression (Expr.hasType_of_typeOf hvalue)

theorem allWellTyped_of_checkAll {statements : List Stmt} {scopes after : Scopes Ty}
    (hcheck : checkAll statements scopes = (.ok (), after)) :
    AllWellTyped scopes.lookup? statements after.lookup? := by
  cases statements with
  | nil =>
      obtain rfl := (Prod.mk.inj hcheck).2
      exact .nil
  | cons first rest =>
      rw [checkAll] at hcheck
      split at hcheck
      · cases hcheck
      · next between hfirst =>
          exact .cons (wellTyped_of_check hfirst) (allWellTyped_of_checkAll hcheck)

end

/-- A check begins in the context of the built-in names. -/
theorem lookup?_ofRoot_signatures (builtins : Builtins) :
    (Scopes.ofRoot builtins.signatures).lookup? = builtins.signature? := by
  funext name
  simp [Scopes.lookup?, Scopes.frames, Scopes.ofRoot, Builtins.signature?]

/-- A program that the checker accepts is well typed in the context of the built-in names. -/
theorem wellTyped_of_checkProgram {program : Stmt} {builtins : Builtins}
    (hcheck : program.checkProgram builtins = .ok ()) :
    ∃ context, WellTyped builtins.signature? program context := by
  have htyped := wellTyped_of_check (Prod.ext hcheck rfl)
  exact ⟨_, lookup?_ofRoot_signatures builtins ▸ htyped⟩

end Stmt

end WhileCompiler
