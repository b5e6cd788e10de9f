import WhileCompiler.Text.Separated

/-!
# Expressions

An operator is kept as its spelling and has no meaning of its own: it is looked up among the
built-in names, just as the name of a called function is.
-/

namespace WhileCompiler

inductive Expr
  | int (value : Int32)
  | bool (value : Bool)
  | var (name : String)
  | unary (operator : String) (operand : Expr)
  | binary (operator : String) (left right : Expr)
  | call (function : String) (arguments : List Expr)
  deriving Repr

/-- The name under which a unary operator is looked up.  Minus is taken by subtraction, so negation
has a name that no program can spell. -/
def unaryName (operator : String) : String :=
  if operator = "-" then "unary-" else operator

namespace Expr

mutual

/-- The expression with every binary operation in parentheses. -/
def text : Expr → String
  | .int value => toString value.toInt
  | .bool value => if value then "true" else "false"
  | .var name => name
  | .unary operator operand => operator ++ operand.text
  | .binary operator left right => s!"({left.text} {operator} {right.text})"
  | .call function arguments => s!"{function}({Text.commaSeparated (texts arguments)})"

def texts : List Expr → List String
  | [] => []
  | first :: rest => first.text :: texts rest

end

theorem texts_eq_map (expressions : List Expr) : texts expressions = expressions.map text := by
  induction expressions with
  | nil => rfl
  | cons first rest ih => simp [texts, ih]

end Expr

end WhileCompiler
