import WhileCompiler.Stmt

/-!
# Renaming

Gives every name in a program another one.  Operators are not names: they keep their spellings.
-/

namespace WhileCompiler

namespace Expr

mutual

def rename (f : String → String) : Expr → Expr
  | .int value => .int value
  | .bool value => .bool value
  | .var name => .var (f name)
  | .unary operator operand => .unary operator (operand.rename f)
  | .binary operator left right => .binary operator (left.rename f) (right.rename f)
  | .call function arguments => .call (f function) (renameAll f arguments)

def renameAll (f : String → String) : List Expr → List Expr
  | [] => []
  | first :: rest => first.rename f :: renameAll f rest

end

end Expr

namespace Stmt

mutual

def rename (f : String → String) : Stmt → Stmt
  | .empty => .empty
  | .block body => .block (renameAll f body)
  | .declaration name type initial =>
    .declaration (f name) type (initial.rename f)
  | .assignment name value => .assignment (f name) (value.rename f)
  | .conditional condition thenBranch elseBranch =>
    .conditional (condition.rename f) (thenBranch.rename f)
      (elseBranch.rename f)
  | .loop condition body => .loop (condition.rename f) (body.rename f)
  | .expression value => .expression (value.rename f)

def renameAll (f : String → String) : List Stmt → List Stmt
  | [] => []
  | first :: rest => first.rename f :: renameAll f rest

end

end Stmt

end WhileCompiler
