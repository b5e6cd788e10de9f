/-!
# Faults

The ways in which the machine can stop without having been asked to.
-/

namespace WhileCompiler.Machine

inductive Fault
  | unknownLabel (label : String)
  | unknownInstruction (mnemonic : String)
  | noInstruction (position : Nat)
  | unknownService (number : Int32)
  | missingOperand (mnemonic : String)
  | unreadableOperand (text : String)
  | constantDestination (value : Int)
  | missingTarget
  | unresolvedSymbol (symbol : String)
  | inputExhausted
  | divisionByZero
  | quotientOverflow
  | stepLimit
  deriving DecidableEq, Repr

def Fault.message : Fault → String
  | unknownLabel label => s!"unknown label '{label}'"
  | unknownInstruction mnemonic => s!"unknown instruction '{mnemonic}'"
  | noInstruction position => s!"unknown instruction 'pc={position}'"
  | unknownService number => s!"unknown instruction 'int with eax={number.toInt}'"
  | missingOperand mnemonic => s!"bad operand '{mnemonic}'"
  | unreadableOperand text => s!"bad operand '{text}'"
  | constantDestination value => s!"bad operand '${value}'"
  | missingTarget => "missing jump target"
  | unresolvedSymbol symbol => s!"unresolved external '{symbol}'"
  | inputExhausted => "readInt past end of input"
  | divisionByZero => "division by zero"
  | quotientOverflow => "quotient out of range"
  | stepLimit => "step limit exceeded"

end WhileCompiler.Machine
