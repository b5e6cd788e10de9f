import WhileCompiler.Builtins
import WhileCompiler.Scopes
import WhileCompiler.Stmt
import WhileCompiler.Typing.Error

/-!
# Checking types

An expression has the type that the names in it give it; operators and calls are treated alike.  A
statement is checked against the scopes around it and hands on the scopes that it leaves behind,
also when it is rejected.
-/

namespace WhileCompiler

/-- The first argument that does not fit its parameter. -/
def firstMisfit (name : String) (number : Nat) : (parameters given : List Ty) → Option TypeError
  | expected :: parameters, found :: given =>
    if found.fits expected then firstMisfit name (number + 1) parameters given
    else some (.badArgument name number expected found)
  | _, _ => none

/-- The type of a call, given the types of the arguments. -/
def callType (scopes : Scopes Ty) (name : String) (given : List Ty) : Except TypeError Ty :=
  match scopes.lookup? name with
  | some (.function parameters result) =>
    if parameters.length = given.length then
      match firstMisfit name 1 parameters given with
      | some error => .error error
      | none => .ok result
    else .error (.wrongCount name parameters.length given.length)
  | _ => .error (.notCallable name)

namespace Expr

mutual

/-- The type of an expression.  Operands are checked from left to right, before the operator. -/
def typeOf (scopes : Scopes Ty) : Expr → Except TypeError Ty
  | .int _ => .ok .int
  | .bool _ => .ok .bool
  | .var name =>
    match scopes.lookup? name with
    | some type => .ok type
    | none => .error (.unknownVariable name)
  | .unary operator operand =>
    match operand.typeOf scopes with
    | .error error => .error error
    | .ok type => callType scopes (unaryName operator) [type]
  | .binary operator left right =>
    match left.typeOf scopes with
    | .error error => .error error
    | .ok leftType =>
      match right.typeOf scopes with
      | .error error => .error error
      | .ok rightType => callType scopes operator [leftType, rightType]
  | .call function arguments =>
    match typesOf scopes arguments with
    | .error error => .error error
    | .ok types => callType scopes function types

def typesOf (scopes : Scopes Ty) : List Expr → Except TypeError (List Ty)
  | [] => .ok []
  | first :: rest =>
    match first.typeOf scopes with
    | .error error => .error error
    | .ok type =>
      match typesOf scopes rest with
      | .error error => .error error
      | .ok types => .ok (type :: types)

end

end Expr

namespace Stmt

/-- The outcome of a check, and the scopes after it. -/
abbrev Checked := Except TypeError Unit × Scopes Ty

/-- Makes a check in a frame of its own. -/
def inFrame (check : Scopes Ty → Checked) (scopes : Scopes Ty) : Checked :=
  let (outcome, scopes) := check scopes.push
  (outcome, scopes.pop)

mutual

/-- Checks a statement.  A name that is visible, a built-in one included, cannot be declared. -/
def check : Stmt → Scopes Ty → Checked
  | .empty, scopes => (.ok (), scopes)
  | .block body, scopes => inFrame (checkAll body) scopes
  | .declaration name type initial, scopes =>
    if scopes.isBound name then (.error (.alreadyDeclared name), scopes)
    else match initial.typeOf scopes with
      | .error error => (.error error, scopes)
      | .ok found =>
        if found.fits type then (.ok (), scopes.declare name type)
        else (.error (.badInitialValue name found), scopes)
  | .assignment name value, scopes =>
    match scopes.lookup? name with
    | none => (.error (.undeclaredTarget name), scopes)
    | some expected => match value.typeOf scopes with
      | .error error => (.error error, scopes)
      | .ok found =>
        if found.fits expected then (.ok (), scopes)
        else (.error (.badAssignment name expected found), scopes)
  | .conditional condition thenBranch elseBranch, scopes =>
    match condition.typeOf scopes with
    | .error error => (.error error, scopes)
    | .ok .bool =>
      match inFrame thenBranch.check scopes with
      | (.error error, scopes) => (.error error, scopes)
      | (.ok (), scopes) => inFrame elseBranch.check scopes
    | .ok found => (.error (.badIfCondition found), scopes)
  | .loop condition body, scopes =>
    match condition.typeOf scopes with
    | .error error => (.error error, scopes)
    | .ok .bool => inFrame body.check scopes
    | .ok found => (.error (.badLoopCondition found), scopes)
  | .expression value, scopes =>
    match value.typeOf scopes with
    | .error error => (.error error, scopes)
    | .ok _ => (.ok (), scopes)

/-- Checks statements in order, up to the first that is rejected. -/
def checkAll : List Stmt → Scopes Ty → Checked
  | [], scopes => (.ok (), scopes)
  | first :: rest, scopes =>
    match first.check scopes with
    | (.error error, scopes) => (.error error, scopes)
    | (.ok (), scopes) => checkAll rest scopes

end

/-- Checks a whole program, in which the built-in names are visible. -/
def checkProgram (program : Stmt) (builtins : Builtins) : Except TypeError Unit :=
  (program.check (.ofRoot builtins.signatures)).1

end Stmt

end WhileCompiler
