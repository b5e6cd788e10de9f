import WhileCompiler.Asm.Basic
import WhileCompiler.Asm.EmissionError
import WhileCompiler.Ir.Basic

/-!
# Frames

Every variable that a program assigns has a word of its own in the frame of the routine, in the
order of the first assignments.  The words lie below the address in `%ebp`.
-/

namespace WhileCompiler.Asm

open Ir

/-- The number of bytes in a word. -/
def wordSize : Nat := 4

/-- The variables of a routine, in the order of their words. -/
structure Frame where
  names : List String
  deriving Repr

namespace Frame

def ofCommands (commands : List Command) : Frame :=
  ⟨(commands.filterMap Command.assigned?).eraseDups⟩

/-- The number of bytes that the variables take. -/
def size (frame : Frame) : Nat :=
  wordSize * frame.names.length

/-- How far below the address in `%ebp` a variable lies. -/
def offset? (frame : Frame) (name : String) : Option Nat :=
  (frame.names.idxOf? name).map fun index => wordSize * (index + 1)

/-- The operand that stands for a variable. -/
def slot (frame : Frame) (name : String) : Except EmissionError Operand :=
  match frame.offset? name with
  | none => .error (.neverAssigned name)
  | some offset => .ok (.memory (-offset) .ebp)

def operand (frame : Frame) : Value → Except EmissionError Operand
  | .constant value => .ok (.constant value.toInt)
  | .variable name => frame.slot name

end Frame

end WhileCompiler.Asm
