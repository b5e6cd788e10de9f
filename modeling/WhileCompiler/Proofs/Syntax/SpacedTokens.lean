import WhileCompiler.Proofs.Syntax.Layout
import WhileCompiler.Proofs.Syntax.Lexemes
import WhileCompiler.Proofs.Syntax.UnplacedTokens

/-!
# Spaced tokens

No blank prolongs a token, so texts of tokens with blanks between them are read as these tokens,
also where the same texts are read as others when they touch.
-/

namespace WhileCompiler.Token

open WhileCompiler.Text

/-- Tokens with blanks around them, no two of which touch. -/
structure IsSpaced (words : List Placed) (gap : List Char) : Prop where
  blank : ∀ word ∈ words, ∀ c ∈ word.gap, isBlank c = true
  apart : ∀ word ∈ words.tail, word.gap ≠ []
  blankAtEnd : ∀ c ∈ gap, isBlank c = true

theorem IsSpaced.tail {word : Placed} {words : List Placed} {gap : List Char}
    (hspaced : IsSpaced (word :: words) gap) : IsSpaced words gap where
  blank := fun other hmem => hspaced.blank other (List.mem_cons_of_mem word hmem)
  apart := fun other hmem => hspaced.apart other (List.mem_of_mem_tail hmem)
  blankAtEnd := hspaced.blankAtEnd

theorem prolongedBy_of_isBlank (kind : Kind) {c : Char} (hblank : isBlank c = true) :
    kind.prolongedBy c = false := by
  have hword : continuesIdentifier c = false := by
    rw [Bool.eq_false_iff]
    intro hcontinues
    rw [isBlank_of_continuesIdentifier hcontinues] at hblank
    cases hblank
  have hdigit : c.isDigit = false := by
    rw [Bool.eq_false_iff]
    intro hdigit
    rw [continuesIdentifier_iff.2 (.inr hdigit)] at hword
    cases hword
  have hmark : (c == '=' || c == '>') = false := by
    rw [Bool.or_eq_false_iff, beq_eq_false_iff_ne, beq_eq_false_iff_ne]
    constructor
    · rintro rfl
      exact absurd hblank (by decide)
    · rintro rfl
      exact absurd hblank (by decide)
  cases kind <;> first | exact hword | exact hdigit | exact hmark | rfl

variable {position : Position} {gap chars rest : List Char} {tokens : List Token}

theorem Reads.behindBlanks (hreads : Reads (position.after gap) chars tokens rest)
    (hblank : ∀ c ∈ gap, isBlank c = true) : Reads position (gap ++ chars) tokens rest := by
  induction gap generalizing position with
  | nil => exact hreads
  | cons c gap ih =>
      rw [List.forall_mem_cons] at hblank
      exact (ih hreads hblank.2).behindBlank hblank.1

theorem reads_blanks (hblank : ∀ c ∈ gap, isBlank c = true) (rest : List Char) :
    Reads position gap [] rest := by
  have hreads : Reads position (gap ++ []) [] rest := (reads_nil rest).behindBlanks hblank
  rwa [List.append_nil] at hreads

/-- What stands behind the first of some spaced tokens begins with a blank. -/
theorem IsSpaced.isBlank_head? {word : Placed} {words : List Placed}
    (hspaced : IsSpaced (word :: words) gap) :
    ∀ c ∈ (words.flatMap Placed.chars ++ gap).head?, isBlank c = true := by
  intro c hc
  cases words with
  | nil => exact hspaced.blankAtEnd c (List.mem_of_mem_head? hc)
  | cons next others =>
      have hgap := hspaced.apart next List.mem_cons_self
      have hhead : c ∈ next.gap.head? := by
        rwa [List.flatMap_cons, Placed.chars, List.append_assoc, List.append_assoc,
          List.head?_append_of_ne_nil _ hgap] at hc
      exact hspaced.blank next (by simp) c (List.mem_of_mem_head? hhead)

/-- Spaced tokens are read again, wherever they stand now. -/
theorem exists_reads_of_isSpaced {words : List Placed} (hspaced : IsSpaced words gap)
    (hspells : ∀ word ∈ words, spells word.token.kind word.token.text.toList = true)
    (hkinds : ∀ word ∈ words, word.token.kind ≠ .endOfInput) (position : Position) :
    ∃ tokens, Reads position (words.flatMap Placed.chars) tokens gap ∧
      tokens.map unplaced = words.map fun word => word.token.unplaced := by
  induction words generalizing position with
  | nil => exact ⟨[], reads_nil gap, rfl⟩
  | cons word words ih =>
      rw [List.forall_mem_cons] at hspells hkinds
      let here := position.after word.gap
      obtain ⟨tokens, hreads, htokens⟩ :=
        ih hspaced.tail hspells.2 hkinds.2 (here.after word.token.text.toList)
      have hnext : ∀ c ∈ (words.flatMap Placed.chars ++ gap).head?,
          word.token.kind.prolongedBy c = false :=
        fun c hc => prolongedBy_of_isBlank _ (hspaced.isBlank_head? c hc)
      have hword := hreads.behindWord hspells.1 hkinds.1 hnext
      refine ⟨⟨word.token.kind, word.token.text, here⟩ :: tokens, ?_, ?_⟩
      · rw [List.flatMap_cons, Placed.chars, List.append_assoc]
        exact hword.behindBlanks (hspaced.blank word List.mem_cons_self)
      · rw [List.map_cons, List.map_cons, htokens]
        rfl

/-- The tokens of a source are also those of a text in which they stand apart. -/
theorem exists_tokens_of_isSpaced {source other : String} {words : List Placed} {finish : Token}
    (htokens : ofSource source = .ok (words.map Placed.token ++ [finish]))
    (hspaced : IsSpaced words gap) (hother : other.toList = words.flatMap Placed.chars ++ gap) :
    ∃ tokens, ofSource other = .ok tokens ∧
      tokens.map unplaced = (words.map Placed.token ++ [finish]).map unplaced := by
  obtain ⟨before, last, hsplit, hbefore, hlast⟩ := exists_words_of_source htokens
  obtain ⟨rfl, hfinish⟩ := List.append_inj' hsplit rfl
  obtain rfl := List.singleton_inj.1 hfinish
  have hspells := spells_scan htokens
  rw [List.forall_mem_append, List.forall_mem_map, List.forall_mem_singleton] at hspells
  obtain ⟨tokens, hreads, hsame⟩ := exists_reads_of_isSpaced hspaced hspells.1
    (fun word hmem => hbefore word.token (List.mem_map_of_mem hmem)) .start
  have hall : Reads .start (words.flatMap Placed.chars ++ gap) (tokens ++ []) [] := by
    refine Reads.append ?_ (reads_blanks hspaced.blankAtEnd [])
    rwa [List.append_nil]
  rw [List.append_nil, ← hother] at hall
  refine ⟨_, hall.ofSource, ?_⟩
  have htext : finish.text = "" := by
    have hempty := hspells.2
    rw [hlast] at hempty
    exact String.toList_eq_nil_iff.1 (List.isEmpty_iff.1 hempty)
  rw [List.map_append, List.map_append, hsame, List.map_map]
  refine congrArg _ (congrArg (fun token => [token]) ?_)
  rw [unplaced, unplaced, hlast, htext]

end WhileCompiler.Token
