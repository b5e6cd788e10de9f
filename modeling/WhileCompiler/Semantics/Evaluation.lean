import WhileCompiler.Scopes
import WhileCompiler.Semantics.Calls
import WhileCompiler.Stmt

/-!
# Evaluating programs

The meaning of a statement, by recursion on it.  How variables are kept is left open: they may live
in nested frames, or all in one store that is keyed by their names.
-/

namespace WhileCompiler

open Semantics

/-- A way to keep variables. -/
structure Storage (V : Type) where
  read : V → String → Int32
  assign : V → String → Int32 → V
  declare : V → String → Int32 → V
  /-- What happens where a block, a branch or the body of a loop begins. -/
  enter : V → V
  leave : V → V

namespace Storage

/-- One value for each name, whatever was declared where. -/
def flat : Storage (String → Int32) where
  read values name := values name
  assign values name value other := if other = name then value else values other
  declare values name value other := if other = name then value else values other
  enter values := values
  leave values := values

/-- Gives the innermost binding of a name a new value. -/
def assignInnermost (name : String) (value : Int32) :
    List (Bindings Int32) → List (Bindings Int32)
  | [] => []
  | frame :: outer =>
    if (frame.get? name).isSome then frame.insert name value :: outer
    else frame :: assignInnermost name value outer

/-- A frame for each block that has been entered.  A declaration binds its name in the innermost
one, and all other uses of a name mean the innermost binding of it. -/
def nested : Storage (Scopes Int32) where
  read scopes name := (scopes.lookup? name).getD 0
  assign scopes name value :=
    if scopes.entered.any fun frame => (frame.get? name).isSome then
      ⟨assignInnermost name value scopes.entered, scopes.root⟩
    else ⟨scopes.entered, scopes.root.insert name value⟩
  declare scopes name value := scopes.declare name value
  enter scopes := scopes.push
  leave scopes := scopes.pop

end Storage

variable {σ ε V : Type}

namespace Expr

mutual

/-- The value of an expression.  Operands are evaluated from left to right. -/
def eval (calls : Calls σ ε) (read : String → Int32) : Expr → σ → Outcome σ ε Int32
  | .int value, state => .done value state
  | .bool value, state => .done (flag value) state
  | .var name, state => .done (read name) state
  | .unary operator operand, state =>
    (operand.eval calls read state).bind fun value state =>
      calls.invoke (unaryName operator) [value] state
  | .binary operator left right, state =>
    (left.eval calls read state).bind fun left state =>
      (right.eval calls read state).bind fun right state =>
        calls.invoke operator [left, right] state
  | .call function arguments, state =>
    (evalAll calls read arguments state).bind fun values state =>
      calls.invoke function values state

def evalAll (calls : Calls σ ε) (read : String → Int32) :
    List Expr → σ → Outcome σ ε (List Int32)
  | [], state => .done [] state
  | first :: rest, state =>
    (first.eval calls read state).bind fun value state =>
      (evalAll calls read rest state).bind fun values state => .done (value :: values) state

end

end Expr

namespace Stmt

mutual

/-- Runs a statement, in which every loop may go round at most `limit` times. -/
def exec (storage : Storage V) (calls : Calls σ ε) (limit : Nat) :
    Stmt → V → σ → Outcome σ ε V
  | .empty, values, state => .done values state
  | .block body, values, state =>
    (execAll storage calls limit body (storage.enter values) state).bind fun values state =>
      .done (storage.leave values) state
  | .declaration name _ initial, values, state =>
    (initial.eval calls (storage.read values) state).bind fun value state =>
      .done (storage.declare values name value) state
  | .assignment name value, values, state =>
    (value.eval calls (storage.read values) state).bind fun value state =>
      .done (storage.assign values name value) state
  | .conditional condition thenBranch elseBranch, values, state =>
    (condition.eval calls (storage.read values) state).bind fun test state =>
      (if test = 0 then elseBranch.exec storage calls limit (storage.enter values) state
        else thenBranch.exec storage calls limit (storage.enter values) state).bind
        fun values state => .done (storage.leave values) state
  | .loop condition body, values, state =>
    Outcome.iterate (fun values state =>
      (condition.eval calls (storage.read values) state).bind fun test state =>
        if test = 0 then .done (values, false) state
        else (body.exec storage calls limit (storage.enter values) state).bind
          fun values state => .done (storage.leave values, true) state)
      limit values state
  | .expression value, values, state =>
    (value.eval calls (storage.read values) state).bind fun _ state => .done values state

/-- Runs statements in order. -/
def execAll (storage : Storage V) (calls : Calls σ ε) (limit : Nat) :
    List Stmt → V → σ → Outcome σ ε V
  | [], values, state => .done values state
  | first :: rest, values, state =>
    (first.exec storage calls limit values state).bind fun values state =>
      execAll storage calls limit rest values state

end

end Stmt

end WhileCompiler
