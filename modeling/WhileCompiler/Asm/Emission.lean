import WhileCompiler.Asm.Frame
import WhileCompiler.Builtins

/-!
# Emitting assembly

Each command becomes instructions of its own.  They load what they need, work in registers and store
the result, so that nothing is kept in a register between two commands.  A function without a recipe
is called outside the program: its arguments are pushed from right to left, and the caller takes
them off the stack again.
-/

namespace WhileCompiler.Asm

open Ir

abbrev Instructions := List (Instruction Operand)

/-- Stores the result of a call in the word of a variable. -/
def store (frame : Frame) (destination : String) : Except EmissionError Instructions := do
  let slot ← frame.slot destination
  return [.move (.register .eax) slot]

/-- Operands for values, which are looked up from left to right. -/
def operands (frame : Frame) : (values : List Value) →
    Except EmissionError { operands : List Operand // operands.length = values.length }
  | [] => return ⟨[], rfl⟩
  | first :: rest => do
    let operand ← frame.operand first
    let others ← operands frame rest
    return ⟨operand :: others.val, congrArg (· + 1) others.property⟩

/-- Pushes the arguments of a call, the last one first. -/
def pushes (frame : Frame) (arguments : List Value) : Except EmissionError Instructions := do
  let operands ← operands frame arguments.reverse
  return operands.val.map .push

/-- Takes the arguments of a call off the stack. -/
def release (count : Nat) : Instructions :=
  if count = 0 then []
  else [.combine .add (.constant (wordSize * count : Nat)) (.register .esp)]

/-- Computes an operator in place. -/
def inlined (frame : Frame) (recipe : Recipe) (destination function : String)
    (arguments : List Value) : Except EmissionError Instructions :=
  if hcount : arguments.length = recipe.arity then do
    let operands ← operands frame arguments
    let stored ← store frame destination
    return recipe.instructions operands.val (operands.property.trans hcount) ++ stored
  else throw (.wrongCount function recipe.arity arguments.length)

/-- Calls a function outside the program. -/
def called (frame : Frame) (destination function : String) (arguments : List Value) :
    Except EmissionError Instructions := do
  let pushed ← pushes frame arguments
  let stored ← store frame destination
  return pushed ++ .call function :: release arguments.length ++ stored

/-- Compares a condition with zero before a jump. -/
def branch (frame : Frame) (condition : Value) (jump : Instruction Operand) :
    Except EmissionError Instructions := do
  let operand ← frame.operand condition
  return [.move operand (.register .eax), .compare (.constant 0) (.register .eax), jump]

/-- Copies a value. -/
def copied (frame : Frame) (destination : String) (value : Value) :
    Except EmissionError Instructions := do
  let operand ← frame.operand value
  let stored ← store frame destination
  return .move operand (.register .eax) :: stored

/-- The lines of one command. -/
def emit (builtins : Builtins) (frame : Frame) : Command → Except EmissionError (List Line)
  | .copy destination value => List.map .instruction <$> copied frame destination value
  | .call destination function arguments =>
    List.map .instruction <$> match builtins.recipe? function with
      | some recipe => inlined frame recipe destination function arguments
      | none => called frame destination function arguments
  | .label name => return [.label name]
  | .jump target => return [.instruction (.jump target)]
  | .jumpIf target condition =>
    List.map .instruction <$> branch frame condition (.jumpIfNotEqual target)
  | .jumpUnless target condition =>
    List.map .instruction <$> branch frame condition (.jumpIfEqual target)

/-- The lines of commands in order, up to the first fault. -/
def emitAll (builtins : Builtins) (frame : Frame) : List Command → Except EmissionError (List Line)
  | [] => return []
  | first :: rest => do
    let lines ← emit builtins frame first
    let others ← emitAll builtins frame rest
    return lines ++ others

end WhileCompiler.Asm
