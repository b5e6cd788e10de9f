import WhileCompiler.Expr.Parser
import WhileCompiler.Stmt

/-!
# Parsing statements

The first token tells most statements apart; a declaration and an assignment differ in the second
one.  An `else` belongs to the nearest `if` before it that has none yet.
-/

namespace WhileCompiler.Stmt

open Parsing

section

variable (finish : Token)

/-- An expression and the token that must follow it. -/
def expressionBefore (kind : Token.Kind) (tokens : List Token) : Result Expr tokens.length :=
  match Expr.operation finish .comparison tokens with
  | .error error => .error error
  | .ok value =>
    match expect finish kind value.rest with
    | .error error => .error error
    | .ok next => .ok (value.followedBy (next.map fun _ => value.value))

/-- The name of a type. -/
def typeName (tokens : List Token) : Result Ty tokens.length :=
  match expect finish .identifier tokens with
  | .error error => .error error
  | .ok name =>
    match Ty.ofName? name.value.text with
    | none => .error (.unknownType name.value.text)
    | some type => .ok (name.map fun _ => type)

/-- What follows the colon of a declaration of `name`. -/
def declarationRest (name : String) (tokens : List Token) : Result Stmt tokens.length :=
  match typeName finish tokens with
  | .error error => .error error
  | .ok type =>
    match expect finish .assign type.rest with
    | .error error => .error error
    | .ok assign =>
      match expressionBefore finish .semicolon assign.rest with
      | .error error => .error error
      | .ok initial =>
        .ok (type.followedBy
          (assign.followedBy (initial.map (Stmt.declaration name type.value))))

mutual

def statement (tokens : List Token) : Result Stmt tokens.length :=
  match tokens with
  | [] => .error (.noOperand finish)
  | token :: rest =>
    match token.kind with
    | .leftBrace =>
      match body rest with
      | .error error => .error error
      | .ok inner => .ok (inner.map Stmt.block).behindToken
    | .whileWord =>
      match expressionBefore finish .doWord rest with
      | .error error => .error error
      | .ok condition =>
        have := condition.shorter
        match statement condition.rest with
        | .error error => .error error
        | .ok inner =>
          .ok (condition.followedBy (inner.map (Stmt.loop condition.value))).behindToken
    | .ifWord =>
      match expressionBefore finish .thenWord rest with
      | .error error => .error error
      | .ok condition =>
        have := condition.shorter
        match statement condition.rest with
        | .error error => .error error
        | .ok thenBranch =>
          have := thenBranch.shorter
          match accept? .elseWord thenBranch.rest with
          | none =>
            .ok (condition.followedBy
              (thenBranch.map fun body => .conditional condition.value body .empty)).behindToken
          | some elseWord =>
            have := elseWord.shorter
            match statement elseWord.rest with
            | .error error => .error error
            | .ok elseBranch =>
              .ok (condition.followedBy (thenBranch.followedBy (elseWord.followedBy
                (elseBranch.map (Stmt.conditional condition.value thenBranch.value))))).behindToken
    | .identifier =>
      match accept? .colon rest, accept? .assign rest with
      | some colon, _ =>
        match declarationRest finish token.text colon.rest with
        | .error error => .error error
        | .ok declared => .ok (colon.followedBy declared).behindToken
      | none, some assign =>
        match expressionBefore finish .semicolon assign.rest with
        | .error error => .error error
        | .ok value =>
          .ok (assign.followedBy (value.map (Stmt.assignment token.text))).behindToken
      | none, none =>
        match expressionBefore finish .semicolon (token :: rest) with
        | .error error => .error error
        | .ok value => .ok (value.map Stmt.expression)
    | _ =>
      match expressionBefore finish .semicolon (token :: rest) with
      | .error error => .error error
      | .ok value => .ok (value.map Stmt.expression)
termination_by (tokens.length, 0)

/-- The statements of a block and the brace that closes it. -/
def body (tokens : List Token) : Result (List Stmt) tokens.length :=
  match accept? .rightBrace tokens with
  | some closing => .ok (closing.map fun _ => [])
  | none =>
    match statement tokens with
    | .error error => .error error
    | .ok first =>
      have := first.shorter
      match body first.rest with
      | .error error => .error error
      | .ok others => .ok (first.followedBy (others.map (first.value :: ·)))
termination_by (tokens.length, 1)

end

end

/-- The program that a whole list of tokens spells. -/
def ofTokens (tokens : List Token) : Except SyntaxError Stmt :=
  whole statement tokens

end WhileCompiler.Stmt
