import WhileCompiler.Asm.Recipe
import WhileCompiler.Ty

/-!
# Operators

The operators that every program may use: how each is spelled, its type, and the instructions that
compute it from operands of any form.
-/

namespace WhileCompiler

inductive Operator
  | add
  | subtract
  | multiply
  | divide
  | remainder
  | compare (condition : Asm.Condition)
  | not
  | negate
  deriving DecidableEq, Repr

namespace Operator

/-- Every operator under each of its names.  Inequality has two. -/
def table : List (String × Operator) :=
  [("+", add), ("-", subtract), ("*", multiply), ("/", divide), ("%", remainder),
    ("<", compare .less), (">", compare .greater), ("<=", compare .lessOrEqual),
    (">=", compare .greaterOrEqual), ("==", compare .equal), ("<>", compare .notEqual),
    ("!=", compare .notEqual), ("!", not), ("unary-", negate)]

def ofName? (name : String) : Option Operator :=
  table.lookup name

def type : Operator → Ty
  | add | subtract | multiply | divide | remainder => .function [.int, .int] .int
  | compare _ => .function [.int, .int] .bool
  | not => .function [.bool] .bool
  | negate => .function [.int] .int

section

open Asm

private def accumulator {arity : Nat} : Slot arity := .fixed (.register .eax)

private def counter {arity : Nat} : Slot arity := .fixed (.register .ecx)

private def data {arity : Nat} : Slot arity := .fixed (.register .edx)

private def constant {arity : Nat} (value : Int) : Slot arity := .fixed (.constant value)

/-- An operand that the operator is given.  Its index is checked against their number. -/
private def argument {arity : Nat} (index : Nat) (hindex : index < arity := by decide) :
    Slot arity :=
  .argument ⟨index, hindex⟩

private def combination (operation : Operation) : Recipe where
  arity := 2
  body := [.move (argument 0) accumulator, .combine operation (argument 1) accumulator]

private def division : List (Instruction (Slot 2)) :=
  [.move (argument 0) accumulator, .extendSign, .move (argument 1) counter, .divide counter]

def recipe : Operator → Recipe
  | add => combination .add
  | subtract => combination .subtract
  | multiply => combination .multiply
  | divide => ⟨2, division⟩
  | remainder => ⟨2, division ++ [.move data accumulator]⟩
  | compare condition =>
    ⟨2, [.move (constant 0) accumulator, .move (constant 1) data, .move (argument 0) counter,
      .compare (argument 1) counter, .moveIf condition data accumulator]⟩
  | not => ⟨1, [.move (argument 0) accumulator, .combine .exclusiveOr (constant 1) accumulator]⟩
  | negate => ⟨1, [.move (argument 0) accumulator, .negate accumulator]⟩

end

/-- The type and the recipe of an operator agree on the number of operands. -/
theorem type_eq_function (operator : Operator) :
    ∃ parameters result, operator.type = .function parameters result ∧
      parameters.length = operator.recipe.arity := by
  cases operator <;> exact ⟨_, _, rfl, rfl⟩

end Operator

end WhileCompiler
