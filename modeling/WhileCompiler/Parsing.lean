import WhileCompiler.Diagnostic
import WhileCompiler.Text.Decimal
import WhileCompiler.Token.Basic

/-!
# Parsing a list of tokens

Parsers take tokens from the front of a list and hand on the rest, which is strictly shorter.  The
tokens up to the end of the input are all that they see; the token that marks this end is kept
apart, since nothing steps over it.
-/

namespace WhileCompiler

/-- Why a list of tokens is no program. -/
inductive SyntaxError
  | unexpected (expected : Token.Kind) (found : Token)
  | noOperand (found : Token)
  | badInteger (found : Token) (fault : Text.NumberFault)
  | unknownType (name : String)
  deriving DecidableEq, Repr

/-- A type name is spelled correctly even when it is unknown, so that fault is one of typing. -/
def SyntaxError.diagnostic : SyntaxError → Diagnostic
  | .unexpected expected found =>
    .grammatical found.position s!"expected {expected.description}, but got \"{found.quotedText}\""
  | .noOperand found =>
    .grammatical found.position
      s!"integer or boolean or variable expected instead of \"{found.quotedText}\""
  | .badInteger found fault =>
    .grammatical found.position s!"invalid integer literal {found.text}: {fault.message}"
  | .unknownType name => .typing s!"{name} is not a known type"

namespace Parsing

/-- What a parser took, and the tokens behind it, fewer than `bound`. -/
structure Parsed (α : Type) (bound : Nat) where
  value : α
  rest : List Token
  shorter : rest.length < bound

namespace Parsed

variable {α β : Type} {bound : Nat}

/-- A value in front of the rest. -/
def before (value : α) (rest : List Token) : Parsed α (rest.length + 1) :=
  ⟨value, rest, Nat.lt_succ_self _⟩

def map (f : α → β) (parsed : Parsed α bound) : Parsed β bound :=
  ⟨f parsed.value, parsed.rest, parsed.shorter⟩

/-- The same result behind one token more. -/
def behindToken (parsed : Parsed α bound) : Parsed α (bound + 1) :=
  ⟨parsed.value, parsed.rest, Nat.lt_succ_of_lt parsed.shorter⟩

/-- The result of a second parser, which went on where the first one stopped. -/
def followedBy (parsed : Parsed α bound) (next : Parsed β parsed.rest.length) : Parsed β bound :=
  ⟨next.value, next.rest, Nat.lt_trans next.shorter parsed.shorter⟩

/-- The result of a second parser, which may have taken nothing where the first one stopped. -/
def extendedBy (parsed : Parsed α bound) (next : Parsed β (parsed.rest.length + 1)) :
    Parsed β bound :=
  ⟨next.value, next.rest, Nat.lt_of_le_of_lt (Nat.le_of_lt_succ next.shorter) parsed.shorter⟩

end Parsed

abbrev Result (α : Type) (bound : Nat) := Except SyntaxError (Parsed α bound)

/-- The tokens before the end of the input. -/
def words (tokens : List Token) : List Token :=
  tokens.takeWhile fun token => token.kind ≠ .endOfInput

/-- The token that marks the end of the input.  A list without one ends behind its last token. -/
def finish (tokens : List Token) : Token :=
  match tokens.find? fun token => token.kind = .endOfInput with
  | some token => token
  | none => match tokens.getLast? with
    | some last => ⟨.endOfInput, "", ⟨last.position.line, last.endColumn⟩⟩
    | none => ⟨.endOfInput, "", .start⟩

/-- The token at the front, which is the end of the input when no word is left. -/
def current (finish : Token) (tokens : List Token) : Token :=
  tokens.headD finish

/-- Takes a token of the given kind. -/
def accept? (kind : Token.Kind) : (tokens : List Token) → Option (Parsed Token tokens.length)
  | [] => none
  | token :: rest => if token.kind = kind then some (.before token rest) else none

/-- Takes a token of the given kind, and fails at any other. -/
def expect (finish : Token) (kind : Token.Kind) (tokens : List Token) :
    Result Token tokens.length :=
  match accept? kind tokens with
  | some parsed => .ok parsed
  | none => .error (.unexpected kind (current finish tokens))

/-- Runs a parser on the words of a list and requires that it takes all of them. -/
def whole {α : Type}
    (parser : (finish : Token) → (tokens : List Token) → Result α tokens.length)
    (tokens : List Token) : Except SyntaxError α :=
  match parser (finish tokens) (words tokens) with
  | .error error => .error error
  | .ok parsed => match parsed.rest with
    | [] => .ok parsed.value
    | token :: _ => .error (.unexpected .endOfInput token)

end Parsing

end WhileCompiler
