import WhileCompiler.Asm.Basic
import WhileCompiler.Machine.Fault
import WhileCompiler.Machine.Memory

/-!
# The state of the machine

Six registers, memory, the operands of the last comparison, and the numbers that are still to be
read and that have been printed.  Arithmetic on words wraps around.
-/

namespace WhileCompiler.Machine

open Asm

structure Registers where
  eax : Int32
  ebx : Int32
  ecx : Int32
  edx : Int32
  esp : Int32
  ebp : Int32
  deriving DecidableEq, Repr

namespace Registers

def get (registers : Registers) : Register → Int32
  | .eax => registers.eax
  | .ebx => registers.ebx
  | .ecx => registers.ecx
  | .edx => registers.edx
  | .esp => registers.esp
  | .ebp => registers.ebp

def set (registers : Registers) (register : Register) (value : Int32) : Registers :=
  match register with
  | .eax => { registers with eax := value }
  | .ebx => { registers with ebx := value }
  | .ecx => { registers with ecx := value }
  | .edx => { registers with edx := value }
  | .esp => { registers with esp := value }
  | .ebp => { registers with ebp := value }

theorem get_set (registers : Registers) (register other : Register) (value : Int32) :
    (registers.set register value).get other =
      if other = register then value else registers.get other := by
  cases register <;> cases other <;> rfl

end Registers

structure State where
  /-- The number of instructions in front of the next one. -/
  position : Nat
  registers : Registers
  /-- Destination and source of the last comparison. -/
  compared : Int32 × Int32
  memory : Memory
  input : List Int32
  output : Array Int32

namespace State

/-- Where the stack begins. -/
def stackTop : Int32 := 0x100000

/-- The state in which a program starts at a position. -/
def initial (position : Nat) (input : List Int32) : State where
  position := position
  registers := ⟨0, 0, 0, 0, stackTop, 0⟩
  compared := (0, 0)
  memory := .zero
  input := input
  output := #[]

def get (state : State) (register : Register) : Int32 :=
  state.registers.get register

def set (state : State) (register : Register) (value : Int32) : State :=
  { state with registers := state.registers.set register value }

def address (state : State) (displacement : Int) (base : Register) : UInt32 :=
  (state.get base + Int32.ofInt displacement).toUInt32

def read (state : State) : Operand → Int32
  | .constant value => Int32.ofInt value
  | .register register => state.get register
  | .memory displacement base => state.memory.read (state.address displacement base)

def write (state : State) (destination : Operand) (value : Int32) : Except Fault State :=
  match destination with
  | .constant constant => .error (.constantDestination constant)
  | .register register => .ok (state.set register value)
  | .memory displacement base =>
    .ok { state with memory := state.memory.write (state.address displacement base) value }

/-- Stores a word on the stack, which grows towards lower addresses. -/
def push (state : State) (value : Int32) : State :=
  let top := state.get .esp - 4
  { state.set .esp top with memory := state.memory.write top.toUInt32 value }

/-- Takes the word on top of the stack. -/
def pop (state : State) : Int32 × State :=
  let top := state.get .esp
  (state.memory.read top.toUInt32, state.set .esp (top + 4))

end State

end WhileCompiler.Machine
