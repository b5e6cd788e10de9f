import WhileCompiler.Position

/-!
# Tokens

The words of a program.  Each operator, bracket and keyword has a kind of its own; numbers, truth
values and identifiers are told apart by their text as well.
-/

namespace WhileCompiler

inductive Token.Kind
  | leftParenthesis
  | rightParenthesis
  | leftBrace
  | rightBrace
  | semicolon
  | comma
  | colon
  | assign
  | plus
  | minus
  | times
  | divide
  | modulo
  | not
  | equal
  | notEqual
  | less
  | greater
  | lessOrEqual
  | greaterOrEqual
  | ifWord
  | thenWord
  | elseWord
  | whileWord
  | doWord
  | integer
  | boolean
  | identifier
  | endOfInput
  deriving DecidableEq, Repr

/-- The column behind the last character of a text that begins at a position. -/
class Token.Ending (text : String) (position : Position) where
  column : Nat
  deriving DecidableEq, Repr

/-- A text ends where its characters do, unless something else is said of it.  No token contains a
line feed. -/
instance Token.Ending.ofText (text : String) (position : Position) : Token.Ending text position :=
  ⟨position.column + text.length⟩

/-- A word of the source, where it begins and where it ends.  The end is an argument that can be
left out, for a word that ends where its text does. -/
structure Token where
  kind : Token.Kind
  text : String
  position : Position
  [ending : Token.Ending text position]
  deriving DecidableEq, Repr

namespace Token

namespace Kind

/-- The name of a kind in listings of tokens. -/
def name : Kind → String
  | leftParenthesis => "LParen"
  | rightParenthesis => "RParen"
  | leftBrace => "LBrace"
  | rightBrace => "RBrace"
  | semicolon => "Semicolon"
  | comma => "Comma"
  | colon => "Colon"
  | assign => "Assign"
  | plus => "Plus"
  | minus => "Minus"
  | times => "Times"
  | divide => "Div"
  | modulo => "Mod"
  | not => "Not"
  | equal => "Eq"
  | notEqual => "Neq"
  | less => "Lt"
  | greater => "Gt"
  | lessOrEqual => "Lte"
  | greaterOrEqual => "Gte"
  | ifWord => "If"
  | thenWord => "Then"
  | elseWord => "Else"
  | whileWord => "While"
  | doWord => "Do"
  | integer => "IntConst"
  | boolean => "BoolConst"
  | identifier => "Identifier"
  | endOfInput => "Eof"

def all : List Kind :=
  [leftParenthesis, rightParenthesis, leftBrace, rightBrace, semicolon, comma, colon, assign, plus,
    minus, times, divide, modulo, not, equal, notEqual, less, greater, lessOrEqual, greaterOrEqual,
    ifWord, thenWord, elseWord, whileWord, doWord, integer, boolean, identifier, endOfInput]

theorem mem_all (kind : Kind) : kind ∈ all := by
  cases kind <;> decide

def ofName? (name : String) : Option Kind :=
  all.find? fun kind => kind.name = name

/-- How messages speak of a kind.  A kind with two spellings goes by the first one. -/
def description : Kind → String
  | leftParenthesis => "'('"
  | rightParenthesis => "')'"
  | leftBrace => "'\x7b'"
  | rightBrace => "'\x7d'"
  | semicolon => "';'"
  | comma => "','"
  | colon => "':'"
  | assign => "':='"
  | plus => "'+'"
  | minus => "'-'"
  | times => "'*'"
  | divide => "'/'"
  | modulo => "'%'"
  | not => "'!'"
  | equal => "'=='"
  | notEqual => "'<>'"
  | less => "'<'"
  | greater => "'>'"
  | lessOrEqual => "'<='"
  | greaterOrEqual => "'>='"
  | ifWord => "'if'"
  | thenWord => "'then'"
  | elseWord => "'else'"
  | whileWord => "'while'"
  | doWord => "'do'"
  | integer => "integer"
  | boolean => "boolean"
  | identifier => "identifier"
  | endOfInput => "end of input"

/-- Whether tokens of this kind differ in their text. -/
def carriesText : Kind → Bool
  | integer | boolean | identifier => true
  | _ => false

end Kind

/-- The column behind the last character, as the token has it. -/
def endColumn (token : Token) : Nat :=
  token.ending.column

/-- One entry of a listing: the kind, the text where it matters, and the position. -/
def listing (token : Token) : String :=
  let place := s!"@{token.position.line}:{token.position.column}"
  if token.kind.carriesText then s!"{token.kind.name}({token.text}){place}"
  else token.kind.name ++ place

/-- How messages quote a token that was not expected. -/
def quotedText (token : Token) : String :=
  if token.kind = .endOfInput then "EOF" else token.text

end Token

end WhileCompiler
