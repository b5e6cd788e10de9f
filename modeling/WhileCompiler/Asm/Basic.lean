import WhileCompiler.Text.Separated

/-!
# Instructions

The instructions of the target machine that compiled programs consist of.  They are generic in their
operands, so that a fixed sequence of instructions can leave some of them open.
-/

namespace WhileCompiler.Asm

inductive Register
  | eax
  | ebx
  | ecx
  | edx
  | esp
  | ebp
  deriving DecidableEq, Repr

/-- A constant, a register, or the word of memory at a distance from the address in a register. -/
inductive Operand
  | constant (value : Int)
  | register (name : Register)
  | memory (displacement : Int) (base : Register)
  deriving DecidableEq, Repr

/-- Operations whose result replaces their second operand. -/
inductive Operation
  | add
  | subtract
  | multiply
  | exclusiveOr
  deriving DecidableEq, Repr

/-- How the destination of the last comparison must relate to its source. -/
inductive Condition
  | less
  | greater
  | lessOrEqual
  | greaterOrEqual
  | equal
  | notEqual
  deriving DecidableEq, Repr

inductive Instruction (α : Type)
  | move (source destination : α)
  | combine (operation : Operation) (source destination : α)
  | negate (destination : α)
  /-- Fills `%edx` with the sign of `%eax`. -/
  | extendSign
  /-- Divides `%edx:%eax`, leaving the quotient in `%eax` and the remainder in `%edx`. -/
  | divide (divisor : α)
  | compare (source destination : α)
  | moveIf (condition : Condition) (source destination : α)
  | jump (label : String)
  | jumpIfEqual (label : String)
  | jumpIfNotEqual (label : String)
  | push (source : α)
  | pop (destination : α)
  | call (target : String)
  | ret
  /-- Asks the operating system for the service whose number is in `%eax`. -/
  | systemCall
  deriving DecidableEq, Repr

namespace Instruction

variable {α β : Type}

def map (f : α → β) : Instruction α → Instruction β
  | move source destination => move (f source) (f destination)
  | combine operation source destination => combine operation (f source) (f destination)
  | negate destination => negate (f destination)
  | extendSign => extendSign
  | divide divisor => divide (f divisor)
  | compare source destination => compare (f source) (f destination)
  | moveIf condition source destination => moveIf condition (f source) (f destination)
  | jump label => jump label
  | jumpIfEqual label => jumpIfEqual label
  | jumpIfNotEqual label => jumpIfNotEqual label
  | push source => push (f source)
  | pop destination => pop (f destination)
  | call target => call target
  | ret => ret
  | systemCall => systemCall

end Instruction

/-- One line of an assembly listing. -/
inductive Line
  | directive (text : String)
  | label (name : String)
  | instruction (code : Instruction Operand)
  deriving DecidableEq, Repr

end WhileCompiler.Asm
