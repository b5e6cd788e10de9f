import WhileCompiler.CommandLine.Host
import WhileCompiler.Compiler

/-!
# The command

Compiles a file, or the standard input, to a file or to the standard output.  Nothing is written
before the whole program has been compiled.
-/

namespace WhileCompiler.CommandLine

/-- What the arguments ask for. -/
inductive Invocation
  | help
  | misuse
  | compile (input output : Option String)
  deriving DecidableEq, Repr

namespace Invocation

/-- A request for help counts wherever it stands. -/
def ofArguments (arguments : List String) : Invocation :=
  if arguments.contains "-h" || arguments.contains "--help" then .help
  else match arguments with
    | [] => .compile none none
    | [input] => .compile (some input) none
    | [input, output] => .compile (some input) (some output)
    | _ => .misuse

end Invocation

def usage : String :=
  "usage: rminic [input-file [output-file]]\n   or  rminic < input-file > output-file\n"

def cannotRead (input : Option String) (fault : FileFault) : String :=
  let place := input.getD "standard input"
  s!"rminic: cannot read {place}: {fault.message}\n"

def cannotWrite (output : Option String) (fault : FileFault) : String :=
  let place := output.getD "standard output"
  s!"rminic: cannot write {place}: {fault.message}\n"

variable {m : Type → Type} [Monad m]

def readSource (host : Host m) : Option String → m (Except FileFault String)
  | some path => host.readFile path
  | none => host.readInput

def writeListing (host : Host m) (listing : String) : Option String → m (Except FileFault Unit)
  | some path => host.writeFile path listing
  | none => host.print listing

/-- The status of a process that panics, as it does where it cannot show a message. -/
def panicked : UInt32 := 101

/-- Reports why a command has failed, and gives the exit status. -/
def reject (host : Host m) (message : String) : m UInt32 := do
  match ← host.report message with
  | .ok () => return 1
  | .error _ => return panicked

/-- Compiles, and gives the exit status. -/
def compile (host : Host m) (input output : Option String) : m UInt32 := do
  match ← readSource host input with
  | .error fault => reject host (cannotRead input fault)
  | .ok source =>
    match Compiler.compile source with
    | .error error => reject host (error.diagnostic.render source ++ "\n")
    | .ok lines =>
      match ← writeListing host (Asm.joined lines) output with
      | .error fault => reject host (cannotWrite output fault)
      | .ok () => return 0

/-- Runs the command with its arguments, and gives the exit status. -/
def run (host : Host m) (arguments : List String) : m UInt32 := do
  match Invocation.ofArguments arguments with
  | .help =>
    match ← host.print usage with
    | .ok () => return 0
    | .error _ => return panicked
  | .misuse => reject host usage
  | .compile input output => compile host input output

end WhileCompiler.CommandLine
