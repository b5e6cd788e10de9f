import WhileCompiler.Proofs.Syntax.Recognition

/-!
# The first fault

The parser fails as soon as it can: at a token with which no program goes on behind those in front
of it.  These begin some program, and what stands behind the token has no part in the fault.
-/

namespace WhileCompiler

open Parsing Reader

namespace Parsing

/-- Words that come first are followed by all words behind them. -/
theorem exists_of_words_eq {tokens front rest : List Token} {found : Token}
    (hwords : words tokens = front ++ found :: rest) :
    (∃ behind, tokens = front ++ found :: behind) ∧
      ∀ more, words (front ++ found :: more) = front ++ found :: words more := by
  constructor
  · obtain ⟨behind, hbehind⟩ : words tokens <+: tokens := List.takeWhile_prefix _
    rw [hwords, List.append_assoc] at hbehind
    exact ⟨_, hbehind.symm⟩
  · intro more
    have hkinds : ∀ token ∈ front ++ [found], token.kind ≠ .endOfInput := by
      intro token hmem
      have hword : token ∈ words tokens := by
        rw [hwords, List.append_cons]
        exact List.mem_append_left rest hmem
      simpa using List.mem_takeWhile_imp hword
    rw [List.append_cons, words, List.takeWhile_append_of_pos (by simpa using hkinds), words,
      ← List.append_cons]

theorem kind_finish (tokens : List Token) : (finish tokens).kind = .endOfInput := by
  rw [finish]
  split
  · next token hfound => simpa using List.find?_some hfound
  · split <;> rfl

theorem finish_append_cons {before : List Token} {finish : Token}
    (hbefore : ∀ token ∈ before, token.kind ≠ .endOfInput) (hfinish : finish.kind = .endOfInput)
    (after : List Token) : Parsing.finish (before ++ finish :: after) = finish := by
  have hnone : before.find? (fun token => token.kind = .endOfInput) = none := by
    simpa [List.find?_eq_none] using hbefore
  rw [Parsing.finish, List.find?_append, hnone]
  simp [hfinish]

/-- The end of the input follows behind all tokens, or is the first token of its kind. -/
theorem finish_cases (tokens : List Token) :
    (∀ token ∈ tokens, token.kind ≠ .endOfInput) ∧ words tokens = tokens ∨
      ∃ before finish after, tokens = before ++ finish :: after ∧
        (∀ token ∈ before, token.kind ≠ .endOfInput) ∧ finish.kind = .endOfInput := by
  cases hfind : tokens.find? fun token => token.kind = .endOfInput with
  | none =>
      have hkinds : ∀ token ∈ tokens, token.kind ≠ .endOfInput := by
        simpa [List.find?_eq_none] using hfind
      refine .inl ⟨hkinds, ?_⟩
      rw [words, List.takeWhile_eq_self_iff]
      simpa using hkinds
  | some finish =>
      obtain ⟨hfinish, before, after, htokens, hbefore⟩ := List.find?_eq_some_iff_append.1 hfind
      refine .inr ⟨before, finish, after, htokens, ?_, of_decide_eq_true hfinish⟩
      simpa using hbefore

end Parsing

namespace Stmt

theorem ne_endOfInput_of_expression {tokens : List Token} {value : Expr}
    (hspells : Expr.Spells tokens value) : ∀ token ∈ tokens, token.kind ≠ .endOfInput := by
  intro token hmem hkind
  have huses := Expr.uses_of_operation hspells token hmem
  rw [hkind] at huses
  cases huses

mutual

/-- No statement goes on behind the end of the input. -/
theorem ne_endOfInput_of_spells {tokens : List Token} {program : Stmt} :
    Spells tokens program → ∀ token ∈ tokens, token.kind ≠ .endOfInput
  | .block hopening hbody hclosing => by
      simpa [hopening, hclosing, or_imp, forall_and] using ne_endOfInput_of_body hbody
  | .loop hword htest hdo hinner => by
      simpa [hword, hdo, or_imp, forall_and] using
        ⟨ne_endOfInput_of_expression htest, ne_endOfInput_of_spells hinner⟩
  | .ifThen hword htest hthen hinner => by
      simpa [hword, hthen, or_imp, forall_and] using
        ⟨ne_endOfInput_of_expression htest, ne_endOfInput_of_spells hinner⟩
  | .ifThenElse hword htest hthen hinner helse hother => by
      simpa [hword, hthen, helse, or_imp, forall_and] using
        ⟨ne_endOfInput_of_expression htest, ne_endOfInput_of_spells hinner,
          ne_endOfInput_of_spells hother⟩
  | .declaration hname hcolon htypeName _ hassign hvalue hsemicolon => by
      simpa [hname, hcolon, htypeName, hassign, hsemicolon, or_imp, forall_and] using
        ne_endOfInput_of_expression hvalue
  | .assignment hname hassign hvalue hsemicolon => by
      simpa [hname, hassign, hsemicolon, or_imp, forall_and] using
        ne_endOfInput_of_expression hvalue
  | .expression hvalue hsemicolon => by
      simpa [hsemicolon, or_imp, forall_and] using ne_endOfInput_of_expression hvalue

theorem ne_endOfInput_of_body {tokens : List Token} {body : List Stmt} :
    SpellsBody tokens body → ∀ token ∈ tokens, token.kind ≠ .endOfInput
  | .nil => nofun
  | .cons hfirst hrest =>
      List.forall_mem_append.2 ⟨ne_endOfInput_of_spells hfirst, ne_endOfInput_of_body hrest⟩

end

/-- Tokens that some program begins with. -/
def BeginsProgram (tokens : List Token) : Prop :=
  ∃ more program, ∀ finish : Token, finish.kind = .endOfInput →
    ofTokens (tokens ++ more ++ [finish]) = .ok program

theorem beginsProgram_of_viable {front : List Token} (hviable : Viable Spells front) :
    BeginsProgram front := by
  obtain ⟨after, program, hspells⟩ := hviable
  obtain ⟨nearest, hnearestSpells, hnearest⟩ := exists_nearestElse hspells
  refine ⟨after, nearest, fun finish hfinish => ?_⟩
  exact (ofTokens_iff_spells (ne_endOfInput_of_spells hspells) hfinish).2
    ⟨hnearestSpells, hnearest⟩

/-- A program is a statement that takes all words. -/
theorem ofTokens_eq (tokens : List Token) :
    ofTokens tokens = match readStatement (Parsing.finish tokens) (words tokens) with
      | .error error => .error error
      | .ok (program, []) => .ok program
      | .ok (_, token :: _) => .error (.unexpected .endOfInput token) := by
  rw [ofTokens, whole, readStatement, ofParser]
  cases statement (Parsing.finish tokens) (words tokens) with
  | error error => rfl
  | ok parsed =>
      obtain ⟨program, rest, shorter⟩ := parsed
      cases rest <;> rfl

/-- What follows the end of the input makes no difference. -/
theorem ofTokens_append_cons {before : List Token} {finish : Token}
    (hbefore : ∀ token ∈ before, token.kind ≠ .endOfInput) (hfinish : finish.kind = .endOfInput)
    (after more : List Token) :
    ofTokens (before ++ finish :: after) = ofTokens (before ++ finish :: more) := by
  rw [ofTokens_eq, ofTokens_eq, words_append_cons hbefore hfinish,
    words_append_cons hbefore hfinish, finish_append_cons hbefore hfinish,
    finish_append_cons hbefore hfinish]

/-- A fault shows at an index, and not before: some program begins with the tokens in front of it,
and whatever follows behind the token there, the fault is the same. -/
structure ShowsAt (tokens : List Token) (error : SyntaxError) (index : Nat) : Prop where
  before : BeginsProgram (tokens.take index)
  fails : ∀ more, ofTokens (tokens.take (index + 1) ++ more) = .error error

theorem showsAt_length {front : List Token} {found : Token} {error : SyntaxError}
    (hviable : Viable Spells front)
    (hagain : ∀ more, ofTokens (front ++ found :: more) = .error error) (behind : List Token) :
    ShowsAt (front ++ found :: behind) error front.length where
  before := by
    rw [List.take_left]
    exact beginsProgram_of_viable hviable
  fails more := by
    have htake : (front ++ found :: behind).take (front.length + 1) = front ++ [found] := by
      rw [List.append_cons, List.take_left']
      simp
    rw [htake, List.append_assoc]
    exact hagain more

theorem shows_of_failed {tokens : List Token} {error : SyntaxError} {found : Token}
    (hread : readStatement (Parsing.finish tokens) (words tokens) = .error error)
    (hfound : found ∈ error.found?) :
    (∃ index, tokens[index]? = some found ∧ ShowsAt tokens error index) ∨
      (∀ token ∈ tokens, token.kind ≠ .endOfInput) ∧ Parsing.finish tokens = found ∧
        BeginsProgram tokens := by
  have hdecides := (decided (Parsing.finish tokens) (words tokens)).statement
  have herror : ofTokens tokens = .error error := by rw [ofTokens_eq, hread]
  cases hdecides.failed error hread found hfound with
  | token front hwords hfront hagain =>
      left
      obtain ⟨⟨behind, rfl⟩, hmore⟩ := exists_of_words_eq hwords
      refine ⟨front.length, by simp, showsAt_length hfront (fun more => ?_) behind⟩
      rw [ofTokens_eq, hmore, hagain]
  | finish hviable =>
      rcases finish_cases tokens with ⟨hkinds, hwords⟩ | ⟨before, last, after, rfl, hbefore, hlast⟩
      · right
        rw [hwords] at hviable
        exact ⟨hkinds, rfl, beginsProgram_of_viable hviable⟩
      · left
        rw [words_append_cons hbefore hlast] at hviable
        rw [finish_append_cons hbefore hlast]
        refine ⟨before.length, by simp, showsAt_length hviable (fun more => ?_) after⟩
        rw [ofTokens_append_cons hbefore hlast more after, herror]

theorem shows_of_left {tokens rest : List Token} {token : Token} {program : Stmt}
    (hread : readStatement (Parsing.finish tokens) (words tokens) = .ok (program, token :: rest)) :
    ∃ index, tokens[index]? = some token ∧
      ShowsAt tokens (.unexpected .endOfInput token) index := by
  obtain ⟨front, hwords, hspells, hagain⟩ :=
    (decided (Parsing.finish tokens) (words tokens)).statement.took _ _ hread
  obtain ⟨⟨behind, rfl⟩, hmore⟩ := exists_of_words_eq hwords
  refine ⟨front.length, by simp,
    showsAt_length (viable_of_spells hspells) (fun more => ?_) behind⟩
  rw [ofTokens_eq, hmore, hagain _ (token :: words more) rfl]

/-- A fault of grammar is reported at the first token that no program goes on with: some program
begins with what stands before it, and whatever stands behind it, the fault is the same.  A list
that does not mark the end of its input may also end too early, and then begins some program. -/
theorem ofTokens_fails_at_first_fault (tokens : List Token) (error : SyntaxError)
    (position : Position) (message : String) (herror : ofTokens tokens = .error error)
    (hgrammar : error.diagnostic = .grammatical position message) :
    (∃ index token, tokens[index]? = some token ∧ token.position = position ∧
        ShowsAt tokens error index) ∨
      (∀ token ∈ tokens, token.kind ≠ .endOfInput) ∧
        (Parsing.finish tokens).position = position ∧ BeginsProgram tokens := by
  obtain ⟨found, hfound, rfl⟩ : ∃ found ∈ error.found?, found.position = position := by
    cases error with
    | unexpected expected found => exact ⟨found, rfl, (Diagnostic.grammatical.inj hgrammar).1⟩
    | noOperand found => exact ⟨found, rfl, (Diagnostic.grammatical.inj hgrammar).1⟩
    | badInteger found fault => exact ⟨found, rfl, (Diagnostic.grammatical.inj hgrammar).1⟩
    | unknownType name => cases hgrammar
  have hshows : (∃ index, tokens[index]? = some found ∧ ShowsAt tokens error index) ∨
      (∀ token ∈ tokens, token.kind ≠ .endOfInput) ∧ Parsing.finish tokens = found ∧
        BeginsProgram tokens := by
    rw [ofTokens_eq] at herror
    split at herror
    · next hread =>
        obtain rfl := Except.error.inj herror
        exact shows_of_failed hread hfound
    · cases herror
    · next program token rest hread =>
        obtain rfl := Except.error.inj herror
        obtain rfl := Option.some.inj hfound
        exact .inl (shows_of_left hread)
  rcases hshows with ⟨index, htoken, hshown⟩ | ⟨hkinds, hfinish, hbegins⟩
  · exact .inl ⟨index, found, htoken, rfl, hshown⟩
  · exact .inr ⟨hkinds, congrArg Token.position hfinish, hbegins⟩

/-- The words of `a < b < c;`. -/
def chainedComparison : List Token :=
  [⟨.identifier, "a", ⟨1, 1⟩⟩, ⟨.less, "<", ⟨1, 3⟩⟩, ⟨.identifier, "b", ⟨1, 5⟩⟩,
    ⟨.less, "<", ⟨1, 7⟩⟩, ⟨.identifier, "c", ⟨1, 9⟩⟩, ⟨.semicolon, ";", ⟨1, 10⟩⟩]

/-- The fault at its second comparison, where the statement should end. -/
def secondComparison : SyntaxError :=
  .unexpected .semicolon ⟨.less, "<", ⟨1, 7⟩⟩

theorem ofTokens_fails_at_first_fault_chained :
    ofTokens chainedComparison = .error secondComparison ∧
      secondComparison.diagnostic = .grammatical ⟨1, 7⟩ "expected ';', but got \"<\"" ∧
      ∃ index token, chainedComparison[index]? = some token ∧ token.position = ⟨1, 7⟩ ∧
        ShowsAt chainedComparison secondComparison index := by
  have herror : ofTokens chainedComparison = .error secondComparison := by cbv
  have hgrammar :
      secondComparison.diagnostic = .grammatical ⟨1, 7⟩ "expected ';', but got \"<\"" := by rfl
  have hshows :=
    ofTokens_fails_at_first_fault chainedComparison secondComparison _ _ herror hgrammar
  refine ⟨herror, hgrammar, hshows.resolve_right ?_⟩
  -- The list ends at another position.
  rintro ⟨-, hposition, -⟩
  revert hposition
  decide

end Stmt

end WhileCompiler
