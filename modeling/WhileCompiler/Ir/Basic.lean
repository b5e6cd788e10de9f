import WhileCompiler.Text.Separated

/-!
# Three-address code

A program as a list of commands over named variables.  Control flow is a matter of labels and jumps,
and a truth value is the number one or zero.
-/

namespace WhileCompiler.Ir

inductive Value
  | constant (value : Int32)
  | variable (name : String)
  deriving DecidableEq, Repr

inductive Command
  | copy (destination : String) (value : Value)
  | call (destination function : String) (arguments : List Value)
  | label (name : String)
  | jump (target : String)
  | jumpIf (target : String) (condition : Value)
  | jumpUnless (target : String) (condition : Value)
  deriving DecidableEq, Repr

def Value.text : Value → String
  | .constant value => toString value.toInt
  | .variable name => name

namespace Command

def text : Command → String
  | copy destination value => s!"{destination} := {value.text}"
  | call destination function arguments =>
    s!"{destination} := {function}({Text.commaSeparated (arguments.map Value.text)})"
  | label name => s!"{name}:"
  | jump target => s!"goto {target}"
  | jumpIf target condition => s!"if {condition.text} goto {target}"
  | jumpUnless target condition => s!"if not {condition.text} goto {target}"

/-- The variable that the command writes. -/
def assigned? : Command → Option String
  | copy destination _ | call destination _ _ => some destination
  | label _ | jump _ | jumpIf _ _ | jumpUnless _ _ => none

/-- The label that control may go to. -/
def target? : Command → Option String
  | jump target | jumpIf target _ | jumpUnless target _ => some target
  | copy _ _ | call _ _ _ | label _ => none

end Command

end WhileCompiler.Ir
