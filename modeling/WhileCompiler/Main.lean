import WhileCompiler.CommandLine.Command

/-!
# The program

Runs the command on the system.
-/

namespace WhileCompiler.CommandLine

/-- What the system says about a file that it does not give.  Some calls negate the number of the
error. -/
def systemFault : IO.Error → FileFault
  | .noFileOrDirectory _ _ _ => .missing
  | .inappropriateType _ code reason | .permissionDenied _ code reason
  | .invalidArgument _ code reason | .resourceExhausted _ code reason =>
    let number := min code.toNat (-code).toNat
    (FileFault.ofNumber? number).getD (.other s!"{reason} (os error {number})")
  | error => .other (toString error)

/-- The system that the program runs on. -/
def system : Host IO where
  readFile name := do
    match ← (IO.FS.readBinFile name).toBaseIO with
    | .ok bytes => return decodeText bytes
    | .error error => return .error (systemFault error)
  readInput := do
    match ← (← IO.getStdin).readBinToEnd.toBaseIO with
    | .ok bytes => return decodeText bytes
    | .error error => return .error (systemFault error)
  writeFile name text := do
    match ← (IO.FS.writeFile name text).toBaseIO with
    | .ok () => return .ok ()
    | .error error => return .error (systemFault error)
  print text := do
    let stream ← IO.getStdout
    match ← (stream.putStr text *> stream.flush).toBaseIO with
    | .ok () => return .ok ()
    | .error error => return .error (systemFault error)
  report text := do
    match ← (IO.eprint text).toBaseIO with
    | .ok () => return .ok ()
    | .error error => return .error (systemFault error)

end WhileCompiler.CommandLine

def main (arguments : List String) : IO UInt32 :=
  WhileCompiler.CommandLine.run WhileCompiler.CommandLine.system arguments
