import WhileCompiler.Token.Lexer

/-!
# Spellings of tokens

Which texts a token of each kind can have in a source, said without reading a source.
-/

namespace WhileCompiler.Token

open WhileCompiler.Text

/-- Whether a text can be the name of a variable or a function in a source: an identifier that is
not a keyword and does not begin with a truth value. -/
def isName (text : List Char) : Bool :=
  isIdentifier text && !(keywords.map Prod.fst).contains text &&
    !truthValues.any fun spelling => spelling.isPrefixOf text

/-- Whether a text is one that tokens of a kind have. -/
def spells (kind : Kind) (text : List Char) : Bool :=
  match kind with
  | .integer => isNumeral text
  | .boolean => truthValues.contains text
  | .identifier => isName text
  | .endOfInput => text.isEmpty
  | kind => punctuation.contains (text, kind) || keywords.contains (text, kind)

end WhileCompiler.Token
