import WhileCompiler.Compiler
import WhileCompiler.Proofs.Results
import WhileCompiler.Proofs.Syntax.SpacedTokens

/-!
# The layout of a source

A source may be laid out anew: as long as its tokens keep apart, blanks change neither the listing
nor the fault, only the positions that a fault is reported with.
-/

namespace WhileCompiler

open Token

/-- The diagnostic as it would be about the start of a text. -/
def Diagnostic.unplaced : Diagnostic → Diagnostic
  | .lexical _ message => .lexical .start message
  | .grammatical _ message => .grammatical .start message
  | .typing message => .typing message
  | .internal message => .internal message
  | .linkage symbol message => .linkage symbol message

/-- The message about a token names its text, and nothing of where it stands. -/
theorem SyntaxError.unplaced_diagnostic (error : SyntaxError) :
    error.unplaced.diagnostic.unplaced = error.diagnostic.unplaced := by
  cases error with
  | unexpected expected found => rfl
  | noOperand found => rfl
  | badInteger found fault => rfl
  | unknownType name => rfl

namespace Compiler

variable {source other : String} {words : List Placed} {gap : List Char} {tokens : List Token}
  {finish : Token}

theorem parse_of_ofSource (htokens : ofSource source = .ok tokens) :
    parse source = (Stmt.ofTokens tokens).mapError .grammatical := by
  rw [parse, tokenize, htokens]
  rfl

/-- Tokens that differ in nothing but their places are parsed to the same program, or to faults
with the same message. -/
theorem ofTokens_of_unplaced {tokens' : List Token} (htokens : ofSource source = .ok tokens)
    (htokens' : ofSource other = .ok tokens')
    (hsame : tokens'.map unplaced = tokens.map unplaced) :
    (Stmt.ofTokens tokens').mapError SyntaxError.unplaced =
      (Stmt.ofTokens tokens).mapError SyntaxError.unplaced := by
  obtain ⟨before, finish, rfl, hbefore, hfinish⟩ := exists_words_of_source htokens
  obtain ⟨before', finish', rfl, hbefore', hfinish'⟩ := exists_words_of_source htokens'
  rw [← Stmt.ofTokens_unplaced hbefore hfinish, ← Stmt.ofTokens_unplaced hbefore' hfinish', hsame]

/-- Where the tokens stand has no influence on the listing, nor on what a fault says but its
position. -/
theorem compileWith_of_unplaced {tokens' : List Token} (htokens : ofSource source = .ok tokens)
    (htokens' : ofSource other = .ok tokens')
    (hsame : tokens'.map unplaced = tokens.map unplaced) (builtins : Builtins) :
    (compileWith builtins other).mapError (·.diagnostic.unplaced) =
      (compileWith builtins source).mapError (·.diagnostic.unplaced) := by
  have hparsed := ofTokens_of_unplaced htokens htokens' hsame
  rw [compileWith, compileWith, parse_of_ofSource htokens, parse_of_ofSource htokens']
  cases hprogram : Stmt.ofTokens tokens with
  | error error =>
      rw [hprogram, mapError_error] at hparsed
      obtain ⟨error', herror', hfault⟩ := mapError_eq_error.1 hparsed
      have hdiagnostic : error'.diagnostic.unplaced = error.diagnostic.unplaced := by
        rw [← error'.unplaced_diagnostic, hfault, error.unplaced_diagnostic]
      rw [herror']
      exact congrArg Except.error hdiagnostic
  | ok program =>
      rw [hprogram, mapError_ok] at hparsed
      rw [mapError_eq_ok.1 hparsed]

/-- A text in which the tokens of a source stand apart has the same kinds and texts of tokens, and
compiles to the same listing, or to a fault of the same stage with the same message. -/
theorem compileWith_ignores_layout
    (htokens : ofSource source = .ok (words.map Placed.token ++ [finish]))
    (hspaced : IsSpaced words gap) (hother : other.toList = words.flatMap Placed.chars ++ gap) :
    (∃ tokens, ofSource other = .ok tokens ∧
      tokens.map unplaced = (words.map Placed.token ++ [finish]).map unplaced) ∧
    ∀ builtins, (compileWith builtins other).mapError (·.diagnostic.unplaced) =
      (compileWith builtins source).mapError (·.diagnostic.unplaced) := by
  obtain ⟨tokens, htokens', hsame⟩ := exists_tokens_of_isSpaced htokens hspaced hother
  exact ⟨⟨tokens, htokens', hsame⟩, compileWith_of_unplaced htokens htokens' hsame⟩

/-- The tokens of a source without blanks, with blanks to put in front of them.  A negation follows
another one, and a name follows a truth value and a numeral. -/
def partedWords : List Placed :=
  [⟨[], ⟨.not, "!", ⟨1, 1⟩⟩⟩, ⟨[' '], ⟨.not, "!", ⟨1, 2⟩⟩⟩, ⟨['\n'], ⟨.boolean, "true", ⟨1, 3⟩⟩⟩,
    ⟨[' '], ⟨.identifier, "ish", ⟨1, 7⟩⟩⟩, ⟨['\u3000'], ⟨.notEqual, "<>", ⟨1, 10⟩⟩⟩,
    ⟨['\r', '\n'], ⟨.minus, "-", ⟨1, 12⟩⟩⟩, ⟨['\t'], ⟨.integer, "12", ⟨1, 13⟩⟩⟩,
    ⟨[' '], ⟨.identifier, "abc", ⟨1, 15⟩⟩⟩]

theorem compileWith_ignores_layout_parted :
    ofSource "!!trueish<>-12abc" =
        .ok (partedWords.map Placed.token ++ [⟨.endOfInput, "", ⟨1, 18⟩⟩]) ∧
      IsSpaced partedWords ['\n'] ∧
      "! !\ntrue ish\u3000<>\r\n-\t12 abc\n".toList = partedWords.flatMap Placed.chars ++ ['\n'] ∧
      ∀ builtins,
        (compileWith builtins "! !\ntrue ish\u3000<>\r\n-\t12 abc\n").mapError
            (·.diagnostic.unplaced) =
          (compileWith builtins "!!trueish<>-12abc").mapError (·.diagnostic.unplaced) := by
  have htokens : ofSource "!!trueish<>-12abc" =
      .ok (partedWords.map Placed.token ++ [⟨.endOfInput, "", ⟨1, 18⟩⟩]) := by
    decide +kernel
  have hblank : (partedWords.all fun word => word.gap.all Text.isBlank) = true := by decide
  have hspaced : IsSpaced partedWords ['\n'] :=
    { blank := fun word hmem => List.all_eq_true.1 (List.all_eq_true.1 hblank word hmem)
      apart := by decide
      blankAtEnd := List.forall_mem_singleton.2 rfl }
  have hparted : "! !\ntrue ish\u3000<>\r\n-\t12 abc\n".toList =
      partedWords.flatMap Placed.chars ++ ['\n'] := by
    decide +kernel
  exact ⟨htokens, hspaced, hparted, (compileWith_ignores_layout htokens hspaced hparted).2⟩

end Compiler

end WhileCompiler
