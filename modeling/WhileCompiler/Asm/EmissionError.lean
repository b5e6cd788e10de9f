import WhileCompiler.Diagnostic

/-!
# Faults of three-address code

Why no assembly can be made of some commands.  Code that comes from a checked program should have
none of these faults, so they are reported as faults of the compiler.
-/

namespace WhileCompiler.Asm

inductive EmissionError
  | neverAssigned (name : String)
  | wrongCount (function : String) (expected given : Nat)
  deriving DecidableEq, Repr

namespace EmissionError

def message : EmissionError → String
  | neverAssigned name => s!"Reading unknown variable: {name}"
  | wrongCount function expected given =>
    s!"Call to builtin {function} takes {expected} args but {given} given."

def diagnostic (error : EmissionError) : Diagnostic :=
  .internal error.message

end EmissionError

end WhileCompiler.Asm
