import WhileCompiler.Expr
import WhileCompiler.Parsing

/-!
# Parsing expressions

Binary operators come in three tiers.  Products bind tighter than sums, and sums tighter than
comparisons; products and sums associate to the left, and a comparison is not an operand of another
one unless it stands in parentheses.
-/

namespace WhileCompiler.Expr

open Parsing

/-- Binary operators of one precedence. -/
inductive Tier
  | comparison
  | sum
  | product
  deriving DecidableEq, Repr

namespace Tier

/-- Whether tokens of a kind are operators of the tier. -/
def includes : Tier → Token.Kind → Bool
  | comparison, .equal | comparison, .notEqual | comparison, .less | comparison, .greater
  | comparison, .lessOrEqual | comparison, .greaterOrEqual => true
  | sum, .plus | sum, .minus => true
  | product, .times | product, .divide | product, .modulo => true
  | _, _ => false

/-- Whether an operation of the tier can be the left operand of another one. -/
def associative : Tier → Bool
  | comparison => false
  | sum | product => true

/-- How many tiers bind tighter. -/
@[simp] def rank : Tier → Nat
  | product => 0
  | sum => 1
  | comparison => 2

end Tier

section

variable (finish : Token)

mutual

/-- A chain of operators of one tier, or a single operand. -/
def operation (tier : Tier) (tokens : List Token) : Result Expr tokens.length :=
  match operand tier tokens with
  | .error error => .error error
  | .ok first =>
    have := first.shorter
    match continuation tier first.value first.rest with
    | .error error => .error error
    | .ok chain => .ok (first.extendedBy chain)
termination_by (tokens.length, 2 * tier.rank + 2)

/-- An operand of an operator of the tier, which is a phrase of the next tighter tier. -/
def operand (tier : Tier) (tokens : List Token) : Result Expr tokens.length :=
  match tier with
  | .comparison => operation .sum tokens
  | .sum => operation .product tokens
  | .product => atom tokens
termination_by (tokens.length, 2 * tier.rank + 1)

/-- The operators that follow `left`, with their right operands. -/
def continuation (tier : Tier) (left : Expr) (tokens : List Token) :
    Result Expr (tokens.length + 1) :=
  match tokens with
  | [] => .ok (.before left [])
  | operator :: rest =>
    if tier.includes operator.kind then
      match operand tier rest with
      | .error error => .error error
      | .ok right =>
        have := right.shorter
        let joined := Expr.binary operator.text left right.value
        if tier.associative then
          match continuation tier joined right.rest with
          | .error error => .error error
          | .ok chain => .ok (right.extendedBy chain).behindToken.behindToken
        else .ok (right.map fun _ => joined).behindToken.behindToken
    else .ok (.before left (operator :: rest))
termination_by (tokens.length, 0)

/-- A constant, a name, a call, a unary operation or an expression in parentheses. -/
def atom (tokens : List Token) : Result Expr tokens.length :=
  match tokens with
  | [] => .error (.noOperand finish)
  | token :: rest =>
    match token.kind with
    | .leftParenthesis =>
      match operation .comparison rest with
      | .error error => .error error
      | .ok inner =>
        match expect finish .rightParenthesis inner.rest with
        | .error error => .error error
        | .ok closing => .ok (inner.followedBy (closing.map fun _ => inner.value)).behindToken
    | .minus | .not =>
      match atom rest with
      | .error error => .error error
      | .ok inner => .ok (inner.map (Expr.unary token.text)).behindToken
    | .integer =>
      match Text.readInt32 token.text.toList with
      | .error fault => .error (.badInteger token fault)
      | .ok value => .ok (.before (.int value) rest)
    | .boolean => .ok (.before (.bool (token.text = "true")) rest)
    | .identifier =>
      match accept? .leftParenthesis rest with
      | none => .ok (.before (.var token.text) rest)
      | some opening =>
        have := opening.shorter
        match arguments opening.rest with
        | .error error => .error error
        | .ok given => .ok (opening.followedBy (given.map (Expr.call token.text))).behindToken
    | _ => .error (.noOperand token)
termination_by (tokens.length, 0)

/-- The arguments of a call and the parenthesis that closes them. -/
def arguments (tokens : List Token) : Result (List Expr) tokens.length :=
  match accept? .rightParenthesis tokens with
  | some closing => .ok (closing.map fun _ => [])
  | none => argumentList tokens
termination_by (tokens.length, 8)

/-- At least one argument, and the parenthesis that closes the list. -/
def argumentList (tokens : List Token) : Result (List Expr) tokens.length :=
  match operation .comparison tokens with
  | .error error => .error error
  | .ok first =>
    have := first.shorter
    match accept? .comma first.rest with
    | some comma =>
      have := comma.shorter
      match argumentList comma.rest with
      | .error error => .error error
      | .ok others => .ok (first.followedBy (comma.followedBy (others.map (first.value :: ·))))
    | none =>
      match expect finish .rightParenthesis first.rest with
      | .error error => .error error
      | .ok closing => .ok (first.followedBy (closing.map fun _ => [first.value]))
termination_by (tokens.length, 7)

end

end

/-- The expression that a whole list of tokens spells. -/
def ofTokens (tokens : List Token) : Except SyntaxError Expr :=
  whole (fun finish => operation finish .comparison) tokens

end WhileCompiler.Expr
