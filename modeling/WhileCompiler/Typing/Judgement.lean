import WhileCompiler.Stmt

/-!
# The rules of typing

Typing as a judgement over contexts that never change: a context says which names are visible and
what types they have.  A declaration gives the statements after it a larger context.
-/

namespace WhileCompiler

/-- The visible names and their types. -/
abbrev Context := String → Option Ty

namespace Context

def extend (context : Context) (name : String) (type : Ty) : Context :=
  fun other => if other = name then some type else context other

end Context

mutual

inductive Expr.HasType (context : Context) : Expr → Ty → Prop
  | int {value : Int32} : HasType context (.int value) .int
  | bool {value : Bool} : HasType context (.bool value) .bool
  | var {name : String} {type : Ty} : context name = some type → HasType context (.var name) type
  | unary {operator : String} {operand : Expr} {parameter result : Ty} :
      HasType context operand parameter →
      context (unaryName operator) = some (.function [parameter] result) →
      HasType context (.unary operator operand) result
  | binary {operator : String} {left right : Expr} {first second result : Ty} :
      HasType context left first → HasType context right second →
      context operator = some (.function [first, second] result) →
      HasType context (.binary operator left right) result
  | call {function : String} {arguments : List Expr} {parameters : List Ty} {result : Ty} :
      Expr.HaveTypes context arguments parameters →
      context function = some (.function parameters result) →
      HasType context (.call function arguments) result

inductive Expr.HaveTypes (context : Context) : List Expr → List Ty → Prop
  | nil : HaveTypes context [] []
  | cons {first : Expr} {rest : List Expr} {type : Ty} {types : List Ty} :
      Expr.HasType context first type → HaveTypes context rest types →
      HaveTypes context (first :: rest) (type :: types)

end

mutual

/-- A statement is well typed in a context, and leaves another one behind. -/
inductive Stmt.WellTyped : Context → Stmt → Context → Prop
  | empty {context : Context} : WellTyped context .empty context
  | block {context inner : Context} {body : List Stmt} :
      Stmt.AllWellTyped context body inner → WellTyped context (.block body) context
  | declaration {context : Context} {name : String} {type : Ty} {initial : Expr} :
      context name = none → initial.HasType context type →
      WellTyped context (.declaration name type initial) (context.extend name type)
  | assignment {context : Context} {name : String} {value : Expr} {type : Ty} :
      context name = some type → value.HasType context type →
      WellTyped context (.assignment name value) context
  | conditional {context thenContext elseContext : Context} {condition : Expr}
      {thenBranch elseBranch : Stmt} :
      condition.HasType context .bool → WellTyped context thenBranch thenContext →
      WellTyped context elseBranch elseContext →
      WellTyped context (.conditional condition thenBranch elseBranch) context
  | loop {context inner : Context} {condition : Expr} {body : Stmt} :
      condition.HasType context .bool → WellTyped context body inner →
      WellTyped context (.loop condition body) context
  | expression {context : Context} {value : Expr} {type : Ty} :
      value.HasType context type → WellTyped context (.expression value) context

inductive Stmt.AllWellTyped : Context → List Stmt → Context → Prop
  | nil {context : Context} : AllWellTyped context [] context
  | cons {before between after : Context} {first : Stmt} {rest : List Stmt} :
      Stmt.WellTyped before first between → AllWellTyped between rest after →
      AllWellTyped before (first :: rest) after

end

end WhileCompiler
