import WhileCompiler.Diagnostic
import WhileCompiler.Text.Blank
import WhileCompiler.Text.Identifier
import WhileCompiler.Token.Basic

/-!
# Reading tokens

A text is cut into lexemes, which blanks may separate.  The rules for a lexeme are tried in a fixed
order: punctuation, longer spellings first, then numbers, then the two truth values, then words.  A
truth value is therefore recognised even where letters follow it.
-/

namespace WhileCompiler.Token

open WhileCompiler.Text

/-- The only fault in a text: a character that begins no lexeme. -/
structure LexicalError where
  position : Position
  found : Char
  deriving DecidableEq, Repr

def LexicalError.diagnostic (error : LexicalError) : Diagnostic :=
  .lexical error.position s!"cannot tokenize at '{error.found}'"

/-- Spellings of punctuation in the order in which they are tried. -/
def punctuation : List (List Char × Kind) :=
  [([':', '='], .assign),
    (['=', '='], .equal),
    (['<', '>'], .notEqual),
    (['!', '='], .notEqual),
    (['<', '='], .lessOrEqual),
    (['>', '='], .greaterOrEqual),
    ([':'], .colon),
    (['<'], .less),
    (['>'], .greater),
    (['!'], .not),
    (['('], .leftParenthesis),
    ([')'], .rightParenthesis),
    (['\x7b'], .leftBrace),
    (['\x7d'], .rightBrace),
    ([';'], .semicolon),
    ([','], .comma),
    (['+'], .plus),
    (['-'], .minus),
    (['*'], .times),
    (['/'], .divide),
    (['%'], .modulo)]

def truthValues : List (List Char) :=
  [['t', 'r', 'u', 'e'], ['f', 'a', 'l', 's', 'e']]

def keywords : List (List Char × Kind) :=
  [(['i', 'f'], .ifWord),
    (['t', 'h', 'e', 'n'], .thenWord),
    (['e', 'l', 's', 'e'], .elseWord),
    (['w', 'h', 'i', 'l', 'e'], .whileWord),
    (['d', 'o'], .doWord)]

/-- The kind of a word that is shaped like an identifier. -/
def wordKind (word : List Char) : Kind :=
  (keywords.lookup word).getD .identifier

/-- The kind and the length of the lexeme at the start of a text, if one begins there. -/
def lexeme? (chars : List Char) : Option (Kind × Nat) :=
  match punctuation.find? fun (spelling, _) => spelling.isPrefixOf chars with
  | some (spelling, kind) => some (kind, spelling.length)
  | none =>
    let digits := chars.takeWhile Char.isDigit
    if digits ≠ [] then some (.integer, digits.length)
    else match truthValues.find? fun spelling => spelling.isPrefixOf chars with
      | some spelling => some (.boolean, spelling.length)
      | none => match chars with
        | [] => none
        | first :: rest =>
          if startsIdentifier first then
            let word := first :: rest.takeWhile continuesIdentifier
            some (wordKind word, word.length)
          else none

theorem punctuation_ne_nil : ∀ entry ∈ punctuation, entry.1 ≠ [] := by
  decide

theorem truthValues_ne_nil : ∀ spelling ∈ truthValues, spelling ≠ [] := by
  decide

/-- A lexeme has at least one character. -/
theorem length_pos_of_lexeme? {chars : List Char} {kind : Kind} {length : Nat}
    (hlexeme : lexeme? chars = some (kind, length)) : 0 < length := by
  unfold lexeme? at hlexeme
  split at hlexeme
  · next spelling _ hfound =>
      cases hlexeme
      exact List.length_pos_iff.2 (punctuation_ne_nil _ (List.mem_of_find?_eq_some hfound))
  · simp only at hlexeme
    split at hlexeme
    · next hdigits =>
        cases hlexeme
        exact List.length_pos_iff.2 hdigits
    · split at hlexeme
      · next spelling hfound =>
          cases hlexeme
          exact List.length_pos_iff.2 (truthValues_ne_nil _ (List.mem_of_find?_eq_some hfound))
      · split at hlexeme
        · cases hlexeme
        · split at hlexeme
          · cases hlexeme
            simp
          · cases hlexeme

/-- Cutting off the blanks and a lexeme leaves less text. -/
private theorem length_rest_lt {chars following : List Char} {found : Char} {kind : Kind}
    {length : Nat} (htext : chars.dropWhile isBlank = found :: following)
    (hlexeme : lexeme? (found :: following) = some (kind, length)) :
    following.length + 1 - length < chars.length := by
  have hpositive := length_pos_of_lexeme? hlexeme
  have hkept : (chars.dropWhile isBlank).length ≤ chars.length :=
    (List.dropWhile_sublist isBlank).length_le
  rw [htext, List.length_cons] at hkept
  omega

/-- The tokens of a text that begins at `position`, closed by the one that marks its end. -/
def scan (position : Position) (chars : List Char) : Except LexicalError (List Token) :=
  let here := position.after (chars.takeWhile isBlank)
  match htext : chars.dropWhile isBlank with
  | [] => .ok [⟨.endOfInput, "", here⟩]
  | found :: following =>
    match hlexeme : lexeme? (found :: following) with
    | none => .error ⟨here, found⟩
    | some (kind, length) =>
      let spelling := (found :: following).take length
      have := length_rest_lt htext hlexeme
      match scan (here.after spelling) ((found :: following).drop length) with
      | .error fault => .error fault
      | .ok tokens => .ok (⟨kind, String.ofList spelling, here⟩ :: tokens)
termination_by chars.length

/-- The tokens of a source text. -/
def ofSource (source : String) : Except LexicalError (List Token) :=
  scan .start source.toList

end WhileCompiler.Token
