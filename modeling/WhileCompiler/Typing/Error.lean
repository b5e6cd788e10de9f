import WhileCompiler.Diagnostic
import WhileCompiler.Ty

/-!
# Type errors

The ways in which a program can violate the rules of typing.  They are not tied to a place in the
source: the program is checked as a tree.
-/

namespace WhileCompiler

inductive TypeError
  | alreadyDeclared (name : String)
  | badInitialValue (name : String) (found : Ty)
  | undeclaredTarget (name : String)
  | badAssignment (name : String) (expected found : Ty)
  | badIfCondition (found : Ty)
  | badLoopCondition (found : Ty)
  | unknownVariable (name : String)
  | notCallable (name : String)
  | wrongCount (name : String) (expected given : Nat)
  /-- Arguments are numbered from one. -/
  | badArgument (name : String) (number : Nat) (expected found : Ty)
  deriving DecidableEq, Repr

namespace TypeError

def message : TypeError → String
  | alreadyDeclared name => s!"Variable {name} already declared."
  | badInitialValue name found => s!"Variable '{name}' cannot be initialized with a {found.text}"
  | undeclaredTarget name => s!"Assignment to undeclared variable: {name}"
  | badAssignment name expected found =>
    s!"Cannot assign {found.text} to '{name}' (of type {expected.text})"
  | badIfCondition found => s!"If condition was {found.text} instead of bool"
  | badLoopCondition found => s!"While loop condition was {found.text} instead of bool"
  | unknownVariable name => s!"Unknown variable: {name}"
  | notCallable name => s!"{name} is not a known function or operator"
  | wrongCount name expected given => s!"{name} expects {expected} arguments but {given} given"
  | badArgument name number expected found =>
    s!"{name} argument {number} expects {expected.text} but {found.text} given"

def diagnostic (error : TypeError) : Diagnostic :=
  .typing error.message

end TypeError

end WhileCompiler
