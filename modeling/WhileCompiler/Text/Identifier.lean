/-!
# Identifiers

Names that a program may spell and that the assembler can link to.  Letters and digits are those of
ASCII: any other character ends a name.
-/

namespace WhileCompiler.Text

def startsIdentifier (c : Char) : Bool :=
  c.isAlpha || c == '_'

def continuesIdentifier (c : Char) : Bool :=
  c.isAlphanum || c == '_'

/-- A letter or underscore, then letters, digits and underscores. -/
def isIdentifier : List Char → Bool
  | [] => false
  | first :: rest => startsIdentifier first && rest.all continuesIdentifier

/-- A non-empty run of decimal digits. -/
def isNumeral (chars : List Char) : Bool :=
  !chars.isEmpty && chars.all Char.isDigit

end WhileCompiler.Text
