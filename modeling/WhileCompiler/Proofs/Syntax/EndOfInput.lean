import WhileCompiler.Proofs.Syntax.FirstFault
import WhileCompiler.Proofs.Syntax.ReplacedTokens

/-!
# The end of the input

A parser that is given a list uncut stops at the first token that marks the end of the input by
itself: no step goes over such a token, and none looks behind it.  A list without such a token is
parsed as if one stood behind its last token.
-/

namespace WhileCompiler

theorem SyntaxError.mapToken_id (error : SyntaxError) : error.mapToken id = error := by
  cases error with
  | unexpected expected found => rfl
  | noOperand found => rfl
  | badInteger found fault => rfl
  | unknownType name => rfl

namespace Parsing

open Reader

variable {α : Type}

/-- The end of the input right behind the last token. -/
def closing (tokens : List Token) : Token :=
  match tokens.getLast? with
  | some last => ⟨.endOfInput, "", ⟨last.position.line, last.endColumn⟩⟩
  | none => ⟨.endOfInput, "", .start⟩

/-- What shows behind all tokens: the last one again, if it marks the end of the input. -/
def lastEnd (tokens : List Token) : Token :=
  match tokens.getLast? with
  | some last => if last.kind = .endOfInput then last else closing tokens
  | none => closing tokens

/-- The value of a parser that stopped at the end of the input. -/
def atEnd (finish : Token) : Except SyntaxError (α × List Token) → Except SyntaxError α
  | .error error => .error error
  | .ok (value, rest) =>
    let next := current finish rest
    if next.kind = .endOfInput then .ok value else .error (.unexpected .endOfInput next)

/-- Runs a parser over a list as it is, and expects the end of the input where it stops. -/
def uncut {bound : List Token → Nat}
    (parser : (finish : Token) → (tokens : List Token) → Result α (bound tokens))
    (tokens : List Token) : Except SyntaxError α :=
  atEnd (lastEnd tokens) (ofParser parser (lastEnd tokens) tokens)

theorem finish_eq_closing {tokens : List Token}
    (htokens : ∀ token ∈ tokens, token.kind ≠ .endOfInput) : finish tokens = closing tokens := by
  have hnone : tokens.find? (fun token => token.kind = .endOfInput) = none := by
    simpa [List.find?_eq_none] using htokens
  rw [finish, hnone]
  rfl

theorem lastEnd_eq_closing {tokens : List Token}
    (htokens : ∀ token ∈ tokens, token.kind ≠ .endOfInput) : lastEnd tokens = closing tokens := by
  rw [lastEnd]
  cases hlast : tokens.getLast? with
  | none => rfl
  | some last => exact if_neg (htokens last (List.mem_of_getLast? hlast))

theorem kind_closing (tokens : List Token) : (closing tokens).kind = .endOfInput := by
  rw [closing]
  cases tokens.getLast? with
  | none => rfl
  | some last => rfl

/-! ## Lists that are not cut -/

/-- The same words with the end of the input left in its place, and what stands behind it. -/
def uncutInput {finish : Token} (hfinish : finish.kind = .endOfInput) (other : Token)
    (after : List Token) : Replacement finish where
  convert := id
  other := other
  behind := finish :: after
  kind_convert _ := rfl
  text_convert _ := rfl
  current_behind := rfl
  clear_behind := clear_cons (by simp [hfinish])

theorem input_uncutInput {finish : Token} (hfinish : finish.kind = .endOfInput) (other : Token)
    (after tokens : List Token) :
    (uncutInput hfinish other after).input tokens = tokens ++ finish :: after := by
  rw [Replacement.input, uncutInput, List.map_id]

theorem atEnd_outcome {finish : Token} (hfinish : finish.kind = .endOfInput) (other : Token)
    (after : List Token) (result : Except SyntaxError (α × List Token)) :
    atEnd other ((uncutInput hfinish other after).outcome result) = atEnd finish result := by
  cases result with
  | error error => exact congrArg Except.error error.mapToken_id
  | ok result =>
      obtain ⟨value, rest⟩ := result
      have hcurrent := (uncutInput hfinish other after).current_input rest
      change current other _ = current finish rest at hcurrent
      simp only [Replacement.outcome, atEnd, hcurrent]

section

variable {parser : (finish : Token) → (tokens : List Token) → Result α tokens.length}
  (hleft : ∀ finish tokens value rest, ofParser parser finish tokens = .ok (value, rest) →
    rest ⊆ tokens)

include hleft

/-- A parser leaves nothing but words, so it is at the end where nothing is left. -/
theorem whole_eq_atEnd (tokens : List Token) :
    whole parser tokens =
      atEnd (finish tokens) (ofParser parser (finish tokens) (words tokens)) := by
  have hsubset := hleft (finish tokens) (words tokens)
  rw [whole]
  rw [ofParser] at hsubset ⊢
  cases hparsed : parser (finish tokens) (words tokens) with
  | error error => rfl
  | ok parsed =>
      obtain ⟨value, rest, hshorter⟩ := parsed
      cases rest with
      | nil => exact (if_pos (kind_finish tokens)).symm
      | cons token rest =>
          have hmem : token ∈ words tokens := by
            apply hsubset value (token :: rest) _ List.mem_cons_self
            rw [hparsed]
            rfl
          have htoken : token.kind ≠ .endOfInput := by
            simpa using List.mem_takeWhile_imp hmem
          exact (if_neg htoken).symm

/-- A parser that replacements do not affect stops at the end of the input by itself. -/
theorem whole_eq_uncut
    (hkept : ∀ finish (replacement : Replacement finish) tokens,
      replacement.KeptBy (ofParser parser) tokens)
    (tokens : List Token) : whole parser tokens = uncut parser tokens := by
  rw [whole_eq_atEnd hleft, uncut]
  rcases finish_cases tokens with ⟨hkinds, hwords⟩ | ⟨before, finish, after, rfl, hbefore, hfinish⟩
  · rw [hwords, finish_eq_closing hkinds, lastEnd_eq_closing hkinds]
  · rw [words_append_cons hbefore hfinish, finish_append_cons hbefore hfinish]
    generalize lastEnd (before ++ finish :: after) = other
    have hsame := hkept finish (uncutInput hfinish other after) before
    rw [Replacement.KeptBy, input_uncutInput] at hsame
    change ofParser parser other _ = _ at hsame
    rw [hsame, atEnd_outcome]

/-! ## What stands behind the end -/

/-- A parser sees nothing but the words and the end of the input. -/
theorem whole_congr {tokens others : List Token} (hwords : words tokens = words others)
    (hfinish : finish tokens = finish others) : whole parser tokens = whole parser others := by
  rw [whole_eq_atEnd hleft, whole_eq_atEnd hleft, hwords, hfinish]

theorem whole_append_cons (before after : List Token) {finish : Token}
    (hfinish : finish.kind = .endOfInput) :
    whole parser (before ++ finish :: after) = whole parser (before ++ [finish]) := by
  rcases finish_cases before with ⟨hkinds, -⟩ | ⟨front, first, behind, rfl, hfront, hfirst⟩
  · apply whole_congr hleft
    · rw [words_append_cons hkinds hfinish, words_append_cons hkinds hfinish]
    · rw [finish_append_cons hkinds hfinish, finish_append_cons hkinds hfinish]
  · rw [List.append_assoc, List.append_assoc, List.cons_append, List.cons_append]
    apply whole_congr hleft
    · rw [words_append_cons hfront hfirst, words_append_cons hfront hfirst]
    · rw [finish_append_cons hfront hfirst, finish_append_cons hfront hfirst]

theorem whole_append_closing (tokens : List Token) :
    whole parser (tokens ++ [closing tokens]) = whole parser tokens := by
  rcases finish_cases tokens with ⟨hkinds, hwords⟩ | ⟨before, first, after, rfl, -, hfirst⟩
  · have hclosing := kind_closing tokens
    apply whole_congr hleft
    · rw [words_append_cons hkinds hclosing, hwords]
    · rw [finish_append_cons hkinds hclosing, finish_eq_closing hkinds]
  · rw [List.append_assoc, List.cons_append, whole_append_cons hleft before _ hfirst,
      whole_append_cons hleft before after hfirst]

end

end Parsing

open Parsing

theorem Stmt.subset_of_readStatement (finish : Token) (tokens : List Token) (program : Stmt)
    (rest : List Token) (hread : readStatement finish tokens = .ok (program, rest)) :
    rest ⊆ tokens := by
  obtain ⟨front, rfl, -⟩ := (decided finish tokens).statement.took program rest hread
  exact List.subset_append_right front rest

theorem Expr.subset_of_readOperation (finish : Token) (tokens : List Token) (value : Expr)
    (rest : List Token) (hread : readOperation .comparison finish tokens = .ok (value, rest)) :
    rest ⊆ tokens := by
  obtain ⟨front, rfl, -⟩ := ((decided finish tokens).operation .comparison).took value rest hread
  exact List.subset_append_right front rest

/-- The parsers stop by themselves at the first token that marks the end of the input, and nothing
behind it makes a difference.  A list that does not end with such a token is parsed as if one stood
right behind it; where there is one already, a second one does no harm. -/
theorem parsing_stops_at_end :
    (∀ tokens, Stmt.ofTokens tokens = uncut Stmt.statement tokens ∧
        Expr.ofTokens tokens = uncut (fun finish => Expr.operation finish .comparison) tokens) ∧
      (∀ before finish after, finish.kind = .endOfInput →
        Stmt.ofTokens (before ++ finish :: after) = Stmt.ofTokens (before ++ [finish]) ∧
          Expr.ofTokens (before ++ finish :: after) = Expr.ofTokens (before ++ [finish])) ∧
      ∀ tokens, Stmt.ofTokens tokens = Stmt.ofTokens (tokens ++ [closing tokens]) ∧
        Expr.ofTokens tokens = Expr.ofTokens (tokens ++ [closing tokens]) := by
  refine ⟨?_, ?_, ?_⟩
  · intro tokens
    constructor
    · exact whole_eq_uncut Stmt.subset_of_readStatement
        (fun _ replacement tokens => (Stmt.kept replacement tokens).statement) tokens
    · exact whole_eq_uncut Expr.subset_of_readOperation
        (fun _ replacement tokens => (Expr.kept replacement tokens).operation .comparison) tokens
  · intro before finish after hfinish
    exact ⟨whole_append_cons Stmt.subset_of_readStatement before after hfinish,
      whole_append_cons Expr.subset_of_readOperation before after hfinish⟩
  · intro tokens
    exact ⟨(whole_append_closing Stmt.subset_of_readStatement tokens).symm,
      (whole_append_closing Expr.subset_of_readOperation tokens).symm⟩

/-- The words of `x := 1`, first with the end of the input behind the name, then with none.  The
number takes up more columns than its text has characters, and the end stands behind all of them. -/
theorem parsing_stops_at_end_early :
    let name : Token := ⟨.identifier, "x", ⟨1, 1⟩⟩
    let finish : Token := ⟨.endOfInput, "", ⟨1, 2⟩⟩
    let number : Token :=
      { kind := .integer, text := "1", position := ⟨1, 6⟩, ending := ⟨12⟩ }
    let assigned : List Token := [⟨.assign, ":=", ⟨1, 3⟩⟩, number]
    finish.kind = .endOfInput ∧
      Expr.ofTokens ([name] ++ finish :: assigned) = Expr.ofTokens ([name] ++ [finish]) ∧
      Expr.ofTokens ([name] ++ [finish]) = .ok (.var "x") ∧
      Stmt.ofTokens (name :: assigned) =
        Stmt.ofTokens (name :: assigned ++ [closing (name :: assigned)]) ∧
      closing (name :: assigned) = ⟨.endOfInput, "", ⟨1, 12⟩⟩ ∧
      Stmt.ofTokens (name :: assigned) =
        .error (.unexpected .semicolon ⟨.endOfInput, "", ⟨1, 12⟩⟩) := by
  intro name finish number assigned
  have hbehind := (parsing_stops_at_end.2.1 [name] finish assigned rfl).2
  have hmissing := (parsing_stops_at_end.2.2 (name :: assigned)).1
  exact ⟨rfl, hbehind, by cbv, hmissing, by decide, by cbv⟩

end WhileCompiler
