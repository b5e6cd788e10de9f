/-!
# Paths

A path is read as steps between slashes, of which several count as one.  A slash in front makes it
start at the root, and a slash at its end asks for a directory.
-/

namespace WhileCompiler.CommandLine

structure Path where
  fromRoot : Bool
  steps : List String
  asksDirectory : Bool
  deriving DecidableEq, Repr

namespace Path

/-- The largest number of bytes in a path. -/
def longest : Nat := 4095

/-- The largest number of bytes in one step of a path. -/
def longestStep : Nat := 255

/-- The pieces of a text between slashes. -/
def pieces : List Char → List (List Char)
  | [] => [[]]
  | c :: rest =>
    if c = '/' then [] :: pieces rest
    else match pieces rest with
      | [] => [[c]]
      | piece :: others => (c :: piece) :: others

def ofText (text : String) : Path where
  fromRoot := text.toList.head? = some '/'
  steps := ((pieces text.toList).filter (· ≠ [])).map String.ofList
  asksDirectory := text.toList.getLast? = some '/'

end Path

end WhileCompiler.CommandLine
