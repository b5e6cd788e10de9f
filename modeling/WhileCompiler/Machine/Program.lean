import WhileCompiler.Asm.Text
import WhileCompiler.Bindings
import WhileCompiler.Machine.Fault
import WhileCompiler.Text.Blank
import WhileCompiler.Text.Decimal

/-!
# Loading programs

A listing is read once, before it runs.  What is wrong with an instruction shows only when control
reaches it, so an instruction that cannot be read becomes a fault in its place.
-/

namespace WhileCompiler.Machine

open Asm

def registers : List Register :=
  [.eax, .ebx, .ecx, .edx, .esp, .ebp]

def readRegister? (text : List Char) : Option Register :=
  registers.find? fun register => register.text.toList = text

def conditions : List Condition :=
  [.less, .greater, .lessOrEqual, .greaterOrEqual, .equal, .notEqual]

/-- The condition of a conditional move, from the ending of its mnemonic. -/
def moveCondition? (mnemonic : String) : Option Condition :=
  conditions.find? fun condition => mnemonic = "cmov" ++ condition.text

def operations : List Operation :=
  [.add, .subtract, .multiply, .exclusiveOr]

def operation? (mnemonic : String) : Option Operation :=
  operations.find? fun operation => operation.text = mnemonic

/-- Reads a displacement, which may be left out when it is zero. -/
def readDisplacement? (text : List Char) : Option Int :=
  if text = [] then some 0 else (Text.readInt32 text).toOption.map Int32.toInt

/-- Reads what follows a displacement: a register in parentheses. -/
def readBase? : List Char → Option Register
  | '(' :: rest => if rest.getLast? = some ')' then readRegister? rest.dropLast else none
  | _ => none

def readOperand? : List Char → Option Operand
  | '$' :: value => (Text.readInt32 value).toOption.map fun value => .constant value.toInt
  | text =>
    match readRegister? text with
    | some register => some (.register register)
    | none =>
      match readBase? (text.dropWhile (· ≠ '(')), readDisplacement? (text.takeWhile (· ≠ '(')) with
      | some base, some displacement => some (.memory displacement base)
      | _, _ => none

def readOperand (text : List Char) : Except Fault Operand :=
  match readOperand? text with
  | some operand => .ok operand
  | none => .error (.unreadableOperand (String.ofList text))

/-- Reads the only operand of an instruction that has one.  Further ones are ignored. -/
def readOne (mnemonic : String) (operands : List (List Char))
    (instruction : Operand → Instruction Operand) : Except Fault (Instruction Operand) :=
  match operands with
  | [] => .error (.missingOperand mnemonic)
  | text :: _ => (readOperand text).map instruction

/-- Reads source and destination of an instruction, in this order. -/
def readTwo (mnemonic : String) (operands : List (List Char))
    (instruction : Operand → Operand → Instruction Operand) :
    Except Fault (Instruction Operand) :=
  match operands with
  | [] => .error (.missingOperand mnemonic)
  | source :: rest =>
    match readOperand source with
    | .error fault => .error fault
    | .ok source => readOne mnemonic rest (instruction source)

/-- What a place in the code does when control reaches it. -/
inductive Cell
  | run (instruction : Instruction Operand)
  | fault (reason : Fault)
  /-- A fault that shows only if the condition holds. -/
  | faultIf (condition : Condition) (reason : Fault)
  deriving Repr

def Cell.ofExcept : Except Fault (Instruction Operand) → Cell
  | .ok instruction => .run instruction
  | .error reason => .fault reason

/-- A conditional move does not touch its operands unless its condition holds. -/
def readMoveIf (mnemonic : String) (condition : Condition) (operands : List (List Char)) : Cell :=
  match readTwo mnemonic operands (.moveIf condition) with
  | .ok instruction => .run instruction
  | .error reason => .faultIf condition reason

/-- A jump or call needs its target only if it is taken. -/
def readTransfer (operands : List (List Char)) (missing : Fault → Cell)
    (instruction : String → Instruction Operand) : Cell :=
  match operands with
  | [] => missing .missingTarget
  | target :: _ => .run (instruction (String.ofList target))

def readCell (mnemonic : String) (operands : List (List Char)) : Cell :=
  match operation? mnemonic, moveCondition? mnemonic with
  | some operation, _ => .ofExcept (readTwo mnemonic operands (.combine operation))
  | none, some condition => readMoveIf mnemonic condition operands
  | none, none =>
    if mnemonic = "movl" then .ofExcept (readTwo mnemonic operands .move)
    else if mnemonic = "negl" then .ofExcept (readOne mnemonic operands .negate)
    else if mnemonic = "cltd" then .run .extendSign
    else if mnemonic = "idivl" then .ofExcept (readOne mnemonic operands .divide)
    else if mnemonic = "cmpl" then .ofExcept (readTwo mnemonic operands .compare)
    else if mnemonic = "jmp" then readTransfer operands .fault .jump
    else if mnemonic = "je" then readTransfer operands (.faultIf .equal) .jumpIfEqual
    else if mnemonic = "jne" then readTransfer operands (.faultIf .notEqual) .jumpIfNotEqual
    else if mnemonic = "pushl" then .ofExcept (readOne mnemonic operands .push)
    else if mnemonic = "popl" then .ofExcept (readOne mnemonic operands .pop)
    else if mnemonic = "call" then readTransfer operands .fault .call
    else if mnemonic = "ret" then .run .ret
    else if mnemonic = "int" then .run .systemCall
    else .fault (.unknownInstruction mnemonic)

/-- The pieces of a text between commas that a space follows. -/
def splitCommas : List Char → List (List Char)
  | [] => [[]]
  | ',' :: ' ' :: rest => [] :: splitCommas rest
  | c :: rest =>
    match splitCommas rest with
    | [] => [[c]]
    | piece :: others => (c :: piece) :: others

/-- What a line contributes to a program. -/
inductive Entry
  | label (name : String)
  | cell (cell : Cell)
  deriving Repr

def readInstruction (text : List Char) : Entry :=
  let operands := splitCommas (text.dropWhile (· ≠ ' ')).tail
  .cell (readCell (String.ofList (text.takeWhile (· ≠ ' ')))
    ((operands.map Text.trim).filter (· ≠ [])))

/-- Reads a line.  Empty lines and directives contribute nothing. -/
def readLine? (line : String) : Option Entry :=
  let text := Text.trim line.toList
  if text = [] ∨ text.head? = some '.' then none
  else if text.getLast? = some ':' then some (.label (String.ofList text.dropLast))
  else some (readInstruction text)

/-- A program in memory: its code, and the position in it that each label names. -/
structure Program where
  code : Array Cell
  positions : Bindings Nat

namespace Program

/-- The labels among entries that begin at `position`, each with the position behind it. -/
def labelsFrom (position : Nat) : List Entry → List (String × Nat)
  | [] => []
  | .label name :: rest => (name, position) :: labelsFrom position rest
  | .cell _ :: rest => labelsFrom (position + 1) rest

def cells : List Entry → List Cell
  | [] => []
  | .label _ :: rest => cells rest
  | .cell cell :: rest => cell :: cells rest

def ofEntries (entries : List Entry) : Program :=
  ⟨(cells entries).toArray, .ofList (labelsFrom 0 entries)⟩

/-- Loads a listing.  Of two labels with one name the later one counts. -/
def ofListing (lines : List String) : Program :=
  ofEntries (lines.filterMap readLine?)

def position? (program : Program) (label : String) : Option Nat :=
  program.positions.get? label

end Program

end WhileCompiler.Machine
