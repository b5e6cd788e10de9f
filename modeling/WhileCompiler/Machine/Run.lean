import WhileCompiler.Machine.Program
import WhileCompiler.Machine.State

/-!
# Running programs

The machine executes one instruction at a time, until the program asks for its end, a fault occurs
or a limit on the number of instructions is reached.
-/

namespace WhileCompiler.Machine

open Asm

/-- Whether a condition holds between the destination and the source of a comparison. -/
def holds (condition : Condition) (compared : Int32 × Int32) : Bool :=
  match condition with
  | .less => compared.1 < compared.2
  | .greater => compared.1 > compared.2
  | .lessOrEqual => compared.1 ≤ compared.2
  | .greaterOrEqual => compared.1 ≥ compared.2
  | .equal => compared.1 = compared.2
  | .notEqual => compared.1 ≠ compared.2

/-- The word that an operation leaves in its destination. -/
def combined : Operation → (destination source : Int32) → Int32
  | .add, destination, source => destination + source
  | .subtract, destination, source => destination - source
  | .multiply, destination, source => destination * source
  | .exclusiveOr, destination, source => destination ^^^ source

/-- How a program ended: its status and what it printed. -/
structure Exit where
  status : Int32
  output : List Int32
  deriving DecidableEq, Repr

/-- What one instruction leads to. -/
inductive Progress
  | running (state : State)
  | exited (exit : Exit)
  | failed (fault : Fault)

def Progress.ofExcept : Except Fault State → Progress
  | .ok state => .running state
  | .error fault => .failed fault

namespace State

/-- Divides the number in `%edx:%eax`, rounding towards zero. -/
def divide (state : State) (divisor : Int32) : Except Fault State :=
  if divisor = 0 then .error .divisionByZero
  else
    let dividend := (state.get .edx).toInt * 0x100000000 + (state.get .eax).toUInt32.toNat
    if dividend = -0x8000000000000000 ∧ divisor = -1 then .error .quotientOverflow
    else .ok ((state.set .eax (Int32.ofInt (dividend.tdiv divisor.toInt))).set .edx
      (Int32.ofInt (dividend.tmod divisor.toInt)))

/-- Goes to a label. -/
def jump (state : State) (program : Program) (label : String) : Except Fault State :=
  match program.position? label with
  | some position => .ok { state with position := position }
  | none => .error (.unknownLabel label)

/-- Runs a routine that is not part of the program.  One prints the word on top of the stack, and
one reads the next number of the input. -/
def callHost (state : State) (symbol : String) : Except Fault State :=
  if symbol = "printInt" then
    .ok { state with output := state.output.push (state.memory.read (state.get .esp).toUInt32) }
  else if symbol = "readInt" then
    match state.input with
    | [] => .error .inputExhausted
    | value :: rest => .ok ({ state with input := rest }.set .eax value)
  else .error (.unresolvedSymbol symbol)

/-- Calls a label, or a routine of the host where no label has the name. -/
def call (state : State) (program : Program) (target : String) : Except Fault State :=
  match program.position? target with
  | some position =>
    .ok { state.push (Int32.ofInt state.position) with position := position }
  | none => state.callHost target

/-- Returns to the address on top of the stack, which is widened to 64 bits. -/
def ret (state : State) : State :=
  let (address, state) := state.pop
  { state with position := address.toInt64.toUInt64.toNat }

/-- Executes an instruction, whose successor the state already points to. -/
def execute (state : State) (program : Program) : Instruction Operand → Progress
  | .move source destination => .ofExcept (state.write destination (state.read source))
  | .combine operation source destination =>
    .ofExcept (state.write destination
      (combined operation (state.read destination) (state.read source)))
  | .negate destination => .ofExcept (state.write destination (-state.read destination))
  | .extendSign => .running (state.set .edx (if state.get .eax < 0 then -1 else 0))
  | .divide divisor => .ofExcept (state.divide (state.read divisor))
  | .compare source destination =>
    .running { state with compared := (state.read destination, state.read source) }
  | .moveIf condition source destination =>
    if holds condition state.compared then
      .ofExcept (state.write destination (state.read source))
    else .running state
  | .jump label => .ofExcept (state.jump program label)
  | .jumpIfEqual label =>
    if holds .equal state.compared then .ofExcept (state.jump program label) else .running state
  | .jumpIfNotEqual label =>
    if holds .notEqual state.compared then .ofExcept (state.jump program label)
    else .running state
  | .push source => .running (state.push (state.read source))
  | .pop destination =>
    let (value, state) := state.pop
    .ofExcept (state.write destination value)
  | .call target => .ofExcept (state.call program target)
  | .ret => .running state.ret
  | .systemCall =>
    if state.get .eax = 1 then .exited ⟨state.get .ebx, state.output.toList⟩
    else .failed (.unknownService (state.get .eax))

/-- Does what the code says at the current position. -/
def step (state : State) (program : Program) : Progress :=
  match program.code[state.position]? with
  | none => .failed (.noInstruction state.position)
  | some (.run instruction) =>
    { state with position := state.position + 1 }.execute program instruction
  | some (.fault reason) => .failed reason
  | some (.faultIf condition reason) =>
    if holds condition state.compared then .failed reason
    else .running { state with position := state.position + 1 }

/-- Runs at most `limit` instructions. -/
def run (program : Program) (limit : Nat) (state : State) : Except Fault Exit :=
  match limit with
  | 0 => .error .stepLimit
  | limit + 1 =>
    match state.step program with
    | .running state => state.run program limit
    | .exited exit => .ok exit
    | .failed fault => .error fault

end State

/-- The largest number of instructions that a program may execute. -/
def stepLimit : Nat := 1000000

/-- Runs a listing from its entry point on an input, up to a number of instructions. -/
def runWithin (limit : Nat) (listing : List String) (input : List Int32) :
    Except Fault Exit :=
  let program := Program.ofListing listing
  match program.position? "_start" with
  | none => .error (.unknownLabel "_start")
  | some position => (State.initial position input).run program limit

/-- Runs a listing from its entry point on an input. -/
def runListing (listing : List String) (input : List Int32) : Except Fault Exit :=
  runWithin stepLimit listing input

end WhileCompiler.Machine
