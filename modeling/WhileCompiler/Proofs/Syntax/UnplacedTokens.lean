import WhileCompiler.Proofs.Syntax.FirstFault
import WhileCompiler.Proofs.Syntax.ReplacedTokens

/-!
# Tokens without their places

The parsers go by the kinds and the texts of tokens.  Where a token stands shows in nothing but the
position that a fault is reported with, so parsing commutes with forgetting the places of all
tokens.
-/

namespace WhileCompiler

/-- The token as it would be at the start of a text. -/
def Token.unplaced (token : Token) : Token :=
  ⟨token.kind, token.text, .start⟩

/-- The fault as it would be if the token that is blamed stood at the start of a text. -/
def SyntaxError.unplaced : SyntaxError → SyntaxError
  | .unexpected expected found => .unexpected expected found.unplaced
  | .noOperand found => .noOperand found.unplaced
  | .badInteger found fault => .badInteger found.unplaced fault
  | .unknownType name => .unknownType name

theorem SyntaxError.mapToken_unplaced (error : SyntaxError) :
    error.mapToken Token.unplaced = error.unplaced := by
  cases error with
  | unexpected expected found => rfl
  | noOperand found => rfl
  | badInteger found fault => rfl
  | unknownType name => rfl

namespace Parsing

/-- The same words without their places, and the end of the input as well. -/
def unplacedInput (finish : Token) : Replacement finish where
  convert := Token.unplaced
  other := finish.unplaced
  behind := []
  kind_convert _ := rfl
  text_convert _ := rfl
  current_behind := rfl
  clear_behind := clear_nil _

theorem input_unplacedInput (finish : Token) (tokens : List Token) :
    (unplacedInput finish).input tokens = tokens.map Token.unplaced :=
  List.append_nil _

end Parsing

open Parsing

/-- Tokens that differ in their places only are parsed to the same program, or fail alike. -/
theorem Stmt.ofTokens_unplaced {before : List Token} {finish : Token}
    (hbefore : ∀ token ∈ before, token.kind ≠ .endOfInput) (hfinish : finish.kind = .endOfInput) :
    ofTokens ((before ++ [finish]).map Token.unplaced) =
      (ofTokens (before ++ [finish])).mapError SyntaxError.unplaced := by
  have hunplacedBefore : ∀ token ∈ before.map Token.unplaced, token.kind ≠ .endOfInput :=
    List.forall_mem_map.2 hbefore
  have hunplacedFinish : finish.unplaced.kind = .endOfInput := hfinish
  have hkept : readStatement finish.unplaced (before.map Token.unplaced) =
      (unplacedInput finish).outcome (readStatement finish before) := by
    rw [← input_unplacedInput finish]
    exact (kept (unplacedInput finish) before).statement
  rw [List.map_append, List.map_cons, List.map_nil, ofTokens_eq, ofTokens_eq,
    words_append_finish hbefore hfinish, words_append_finish hunplacedBefore hunplacedFinish,
    finish_append_cons hbefore hfinish, finish_append_cons hunplacedBefore hunplacedFinish, hkept]
  cases readStatement finish before with
  | error error => exact congrArg Except.error error.mapToken_unplaced
  | ok result =>
      obtain ⟨program, rest⟩ := result
      cases rest with
      | nil => rfl
      | cons token rest => rfl

end WhileCompiler
