import WhileCompiler.Ir.Basic
import WhileCompiler.Ir.Names
import WhileCompiler.Stmt

/-!
# Lowering statements to three-address code

Operands are computed from left to right.  The result of every operator and call goes to a temporary
of its own; constants and variables stay where they are until they are used.
-/

namespace WhileCompiler

namespace Ir

/-- Code that computes a result, and the state of the names after it. -/
structure Lowered (α : Type) where
  code : List Command
  result : α
  names : Names

/-- The stem of temporaries for the results of a function. -/
def temporaryStem (function : String) : String :=
  s!"$resultOf_{function}_"

/-- Calls a function once the code for its arguments has run. -/
def Lowered.call (arguments : Lowered (List Value)) (function : String) : Lowered Value :=
  let (temporary, names) := arguments.names.fresh (temporaryStem function)
  ⟨arguments.code ++ [.call temporary function arguments.result], .variable temporary, names⟩

end Ir

open Ir

namespace Expr

mutual

/-- Code for an expression, and where its value is found. -/
def lower (expression : Expr) (names : Names) : Lowered Value :=
  match expression with
  | .int value => ⟨[], .constant value, names⟩
  | .bool value => ⟨[], .constant (if value then 1 else 0), names⟩
  | .var name => ⟨[], .variable name, names⟩
  | .unary operator operand =>
    let operand := operand.lower names
    Lowered.call ⟨operand.code, [operand.result], operand.names⟩ (unaryName operator)
  | .binary operator left right =>
    let left := left.lower names
    let right := right.lower left.names
    Lowered.call ⟨left.code ++ right.code, [left.result, right.result], right.names⟩ operator
  | .call function arguments => (lowerAll arguments names).call function

/-- Code for arguments, in order. -/
def lowerAll (expressions : List Expr) (names : Names) : Lowered (List Value) :=
  match expressions with
  | [] => ⟨[], [], names⟩
  | first :: rest =>
    let first := first.lower names
    let rest := lowerAll rest first.names
    ⟨first.code ++ rest.code, first.result :: rest.result, rest.names⟩

end

end Expr

namespace Stmt

mutual

/-- Code for a statement.  Labels are drawn before the parts of the statement are lowered. -/
def lower (statement : Stmt) (names : Names) : Lowered Unit :=
  match statement with
  | .empty => ⟨[], (), names⟩
  | .block body => lowerAll body names
  | .declaration name _ value | .assignment name value =>
    let value := value.lower names
    ⟨value.code ++ [.copy name value.result], (), value.names⟩
  | .conditional condition thenBranch elseBranch =>
    let (elseLabel, names) := names.fresh elseStem
    let (endLabel, names) := names.fresh endIfStem
    let condition := condition.lower names
    let thenBranch := thenBranch.lower condition.names
    if elseBranch.isEmpty then
      ⟨condition.code ++ .jumpUnless endLabel condition.result :: thenBranch.code ++
          [.label endLabel],
        (), thenBranch.names⟩
    else
      let elseBranch := elseBranch.lower thenBranch.names
      ⟨condition.code ++ .jumpUnless elseLabel condition.result :: thenBranch.code ++
          [.jump endLabel, .label elseLabel] ++ elseBranch.code ++ [.label endLabel],
        (), elseBranch.names⟩
  | .loop condition body =>
    let (headLabel, names) := names.fresh loopHeadStem
    let (endLabel, names) := names.fresh loopEndStem
    let condition := condition.lower names
    let body := body.lower condition.names
    ⟨.label headLabel :: condition.code ++ .jumpUnless endLabel condition.result :: body.code ++
        [.jump headLabel, .label endLabel],
      (), body.names⟩
  | .expression value =>
    let value := value.lower names
    ⟨value.code, (), value.names⟩

/-- Code for the statements of a block, one behind the other. -/
def lowerAll (statements : List Stmt) (names : Names) : Lowered Unit :=
  match statements with
  | [] => ⟨[], (), names⟩
  | first :: rest =>
    let first := first.lower names
    let rest := lowerAll rest first.names
    ⟨first.code ++ rest.code, (), rest.names⟩

end

/-- The code of a whole program. -/
def toIr (statement : Stmt) : List Command :=
  (statement.lower .initial).code

end Stmt

end WhileCompiler
