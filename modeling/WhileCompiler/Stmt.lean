import WhileCompiler.Expr
import WhileCompiler.Ty

/-!
# Statements

A program is one statement.  The empty statement has no spelling: it stands for an `else` branch
that was left out.
-/

namespace WhileCompiler

inductive Stmt
  | empty
  | block (body : List Stmt)
  | declaration (name : String) (type : Ty) (initial : Expr)
  | assignment (name : String) (value : Expr)
  | conditional (condition : Expr) (thenBranch elseBranch : Stmt)
  | loop (condition : Expr) (body : Stmt)
  | expression (value : Expr)
  deriving Repr

namespace Stmt

def isEmpty : Stmt → Bool
  | .empty => true
  | _ => false

/-- What sort of statement this is, in one word. -/
def kindName : Stmt → String
  | .empty => "empty"
  | .block _ => "block"
  | .declaration _ _ _ => "declaration"
  | .assignment _ _ => "assignment"
  | .conditional _ _ _ => "if"
  | .loop _ _ => "while"
  | .expression _ => "expression"

mutual

def text : Stmt → String
  | .empty => "\x7b\x7d"
  | .block body => "\x7b" ++ bodyText body ++ " \x7d"
  | .declaration name type initial => s!"{name} : {type.text} := {initial.text};"
  | .assignment name value => s!"{name} := {value.text};"
  | .conditional condition thenBranch elseBranch =>
    let withoutElse := s!"if ({condition.text}) {thenBranch.text}"
    if elseBranch.isEmpty then withoutElse else s!"{withoutElse} else {elseBranch.text}"
  | .loop condition body => s!"while ({condition.text}) {body.text}"
  | .expression value => s!"{value.text};"

/-- The statements of a block, each behind a space. -/
def bodyText : List Stmt → String
  | [] => ""
  | first :: rest => " " ++ first.text ++ bodyText rest

end

end Stmt

end WhileCompiler
