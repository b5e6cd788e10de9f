import WhileCompiler.Expr.Grammar
import WhileCompiler.Stmt

/-!
# The grammar of statements

Which tokens spell which statement.  The grammar alone leaves open to which `if` an `else` belongs;
`nearestElse` picks the trees in which it is always the nearest one that has no other.
-/

namespace WhileCompiler.Stmt

mutual

inductive Spells : List Token → Stmt → Prop
  | block {opening closing : Token} {inner : List Token} {body : List Stmt} :
      opening.kind = .leftBrace → SpellsBody inner body → closing.kind = .rightBrace →
      Spells (opening :: inner ++ [closing]) (.block body)
  | loop {whileWord doWord : Token} {test inner : List Token} {condition : Expr} {body : Stmt} :
      whileWord.kind = .whileWord → Expr.Spells test condition → doWord.kind = .doWord →
      Spells inner body →
      Spells (whileWord :: test ++ doWord :: inner) (.loop condition body)
  | ifThen {ifWord thenWord : Token} {test inner : List Token} {condition : Expr}
      {thenBranch : Stmt} :
      ifWord.kind = .ifWord → Expr.Spells test condition → thenWord.kind = .thenWord →
      Spells inner thenBranch →
      Spells (ifWord :: test ++ thenWord :: inner) (.conditional condition thenBranch .empty)
  | ifThenElse {ifWord thenWord elseWord : Token} {test inner other : List Token}
      {condition : Expr} {thenBranch elseBranch : Stmt} :
      ifWord.kind = .ifWord → Expr.Spells test condition → thenWord.kind = .thenWord →
      Spells inner thenBranch → elseWord.kind = .elseWord → Spells other elseBranch →
      Spells (ifWord :: test ++ thenWord :: inner ++ elseWord :: other)
        (.conditional condition thenBranch elseBranch)
  | declaration {name colon typeName assign semicolon : Token} {value : List Token} {type : Ty}
      {initial : Expr} :
      name.kind = .identifier → colon.kind = .colon → typeName.kind = .identifier →
      Ty.ofName? typeName.text = some type → assign.kind = .assign →
      Expr.Spells value initial → semicolon.kind = .semicolon →
      Spells (name :: colon :: typeName :: assign :: value ++ [semicolon])
        (.declaration name.text type initial)
  | assignment {name assign semicolon : Token} {tokens : List Token} {value : Expr} :
      name.kind = .identifier → assign.kind = .assign → Expr.Spells tokens value →
      semicolon.kind = .semicolon →
      Spells (name :: assign :: tokens ++ [semicolon]) (.assignment name.text value)
  | expression {semicolon : Token} {tokens : List Token} {value : Expr} :
      Expr.Spells tokens value → semicolon.kind = .semicolon →
      Spells (tokens ++ [semicolon]) (.expression value)

inductive SpellsBody : List Token → List Stmt → Prop
  | nil : SpellsBody [] []
  | cons {first rest : List Token} {statement : Stmt} {others : List Stmt} :
      Spells first statement → SpellsBody rest others →
      SpellsBody (first ++ rest) (statement :: others)

end

/-- Whether an `else` behind the statement would belong to an `if` inside it. -/
def endsOpen : Stmt → Bool
  | .conditional _ _ elseBranch => elseBranch.isEmpty || elseBranch.endsOpen
  | .loop _ body => body.endsOpen
  | _ => false

mutual

/-- Whether each `else` belongs to the nearest `if` before it that has no other. -/
def nearestElse : Stmt → Bool
  | .conditional _ thenBranch elseBranch =>
    thenBranch.nearestElse && elseBranch.nearestElse &&
      (elseBranch.isEmpty || !thenBranch.endsOpen)
  | .loop _ body => body.nearestElse
  | .block body => allNearestElse body
  | _ => true

def allNearestElse : List Stmt → Bool
  | [] => true
  | first :: rest => first.nearestElse && allNearestElse rest

end

end WhileCompiler.Stmt
