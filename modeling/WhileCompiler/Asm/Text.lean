import WhileCompiler.Asm.Basic

/-!
# The text of assembly

Instructions are written with their source before their destination.  Only labels and directives
stand in the first column of a listing; instructions are indented.
-/

namespace WhileCompiler.Asm

def Register.text : Register → String
  | eax => "%eax"
  | ebx => "%ebx"
  | ecx => "%ecx"
  | edx => "%edx"
  | esp => "%esp"
  | ebp => "%ebp"

def Operand.text : Operand → String
  | constant value => s!"${value}"
  | register name => name.text
  | memory displacement base => s!"{displacement}({base.text})"

def Operation.text : Operation → String
  | add => "addl"
  | subtract => "subl"
  | multiply => "imull"
  | exclusiveOr => "xorl"

/-- The ending of an instruction that depends on the condition. -/
def Condition.text : Condition → String
  | less => "l"
  | greater => "g"
  | lessOrEqual => "le"
  | greaterOrEqual => "ge"
  | equal => "e"
  | notEqual => "ne"

/-- A mnemonic and its operands. -/
def written (mnemonic : String) (operands : List String) : String :=
  s!"{mnemonic} {Text.commaSeparated operands}"

def Instruction.text {α : Type} (operandText : α → String) : Instruction α → String
  | move source destination => written "movl" [operandText source, operandText destination]
  | combine operation source destination =>
    written operation.text [operandText source, operandText destination]
  | negate destination => written "negl" [operandText destination]
  | extendSign => "cltd"
  | divide divisor => written "idivl" [operandText divisor]
  | compare source destination => written "cmpl" [operandText source, operandText destination]
  | moveIf condition source destination =>
    written s!"cmov{condition.text}" [operandText source, operandText destination]
  | jump label => written "jmp" [label]
  | jumpIfEqual label => written "je" [label]
  | jumpIfNotEqual label => written "jne" [label]
  | push source => written "pushl" [operandText source]
  | pop destination => written "popl" [operandText destination]
  | call target => written "call" [target]
  | ret => "ret"
  | systemCall => "int $0x80"

theorem Instruction.text_map {α β : Type} (f : α → β) (operandText : β → String)
    (instruction : Instruction α) :
    (instruction.map f).text operandText = instruction.text (operandText ∘ f) := by
  cases instruction <;> rfl

def Line.text : Line → String
  | directive text => text
  | label name => s!"{name}:"
  | instruction code => code.text Operand.text

/-- Indents a line unless it looks like a label or a directive. -/
def indented (line : String) : String :=
  if line.toList.getLast? = some ':' ∨ line.toList.head? = some '.' then line else "    " ++ line

/-- The text of a listing, in which every line is ended. -/
def joined (lines : List String) : String :=
  String.join (lines.map (· ++ "\n"))

end WhileCompiler.Asm
