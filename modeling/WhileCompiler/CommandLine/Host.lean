/-!
# Hosts

The effects that a command has on the system around it.  A command is written once for every host,
so that it can be studied on one whose effects are values.
-/

namespace WhileCompiler.CommandLine

/-- Why a file or a standard stream cannot be read or written. -/
inductive FileFault
  | missing
  | denied
  | notDirectory
  | directory
  | nameTooLong
  | invalidText
  | other (reason : String)
  deriving DecidableEq, Repr

def FileFault.message : FileFault → String
  | missing => "No such file or directory (os error 2)"
  | denied => "Permission denied (os error 13)"
  | notDirectory => "Not a directory (os error 20)"
  | directory => "Is a directory (os error 21)"
  | nameTooLong => "File name too long (os error 36)"
  | invalidText => "stream did not contain valid UTF-8"
  | other reason => reason

/-- The fault that the system knows by a number. -/
def FileFault.ofNumber? : Nat → Option FileFault
  | 2 => some missing
  | 13 => some denied
  | 20 => some notDirectory
  | 21 => some directory
  | 36 => some nameTooLong
  | _ => none

/-- The text that bytes spell in UTF-8. -/
def decodeText (bytes : ByteArray) : Except FileFault String :=
  match String.fromUTF8? bytes with
  | some text => .ok text
  | none => .error .invalidText

structure Host (m : Type → Type) where
  readFile : (name : String) → m (Except FileFault String)
  readInput : m (Except FileFault String)
  writeFile : (name text : String) → m (Except FileFault Unit)
  /-- Appends to the standard output.  A part of the text may have been printed before a fault. -/
  print : (text : String) → m (Except FileFault Unit)
  /-- Appends to the standard error output. -/
  report : (text : String) → m (Except FileFault Unit)

end WhileCompiler.CommandLine
