import WhileCompiler.Proofs.Syntax.Lexemes

/-!
# Texts that are read piece by piece

A text that stands in front of a delimiter is read without regard to what follows it, since no token
goes on into a delimiter.  So texts can be put one behind the other: each is read as it is read on
its own.
-/

namespace WhileCompiler.Token

open WhileCompiler.Text

/-- What stands behind a piece of text in a larger one. -/
def delimiters : List Char :=
  [' ', ')', ',', ';']

def EndsBefore (rest : List Char) : Prop :=
  ∀ c ∈ rest.head?, c ∈ delimiters

theorem endsBefore_nil : EndsBefore [] :=
  nofun

theorem endsBefore_cons {c : Char} {rest : List Char} (hc : c ∈ delimiters) :
    EndsBefore (c :: rest) :=
  fun _ hfirst => Option.some.inj hfirst ▸ hc

theorem endsBefore_space {chars : List Char} : EndsBefore (' ' :: chars) :=
  endsBefore_cons (by decide)

theorem EndsBefore.append {chars rest : List Char} (hchars : EndsBefore chars)
    (hrest : EndsBefore rest) : EndsBefore (chars ++ rest) := by
  cases chars with
  | nil => exact hrest
  | cons first others => exact hchars

/-- No text of a token goes on into a delimiter. -/
theorem EndsBefore.not_prolonged {rest : List Char} (hrest : EndsBefore rest) (kind : Kind) :
    ∀ c ∈ rest.head?, kind.prolongedBy c = false := by
  have hdelimiters : ∀ kind ∈ Kind.all, delimiters.any kind.prolongedBy = false := by
    decide
  intro c hc
  simpa using List.any_eq_false.1 (hdelimiters kind (Kind.mem_all kind)) c (hrest c hc)

/-- Punctuation in front of the text does not go on into it. -/
def StartsAfresh (chars : List Char) : Prop :=
  ∀ c ∈ chars.head?, (c == '=' || c == '>') = false

theorem EndsBefore.startsAfresh {rest : List Char} (hrest : EndsBefore rest) : StartsAfresh rest :=
  hrest.not_prolonged .plus

theorem startsAfresh_cons {c : Char} {chars : List Char} (hc : (c == '=' || c == '>') = false) :
    StartsAfresh (c :: chars) :=
  fun _ hfirst => Option.some.inj hfirst ▸ hc

theorem StartsAfresh.append {chars rest : List Char} (hchars : StartsAfresh chars)
    (hrest : StartsAfresh rest) : StartsAfresh (chars ++ rest) := by
  cases chars with
  | nil => exact hrest
  | cons first others => exact hchars

theorem startsAfresh_of_continuesIdentifier {chars : List Char}
    (hchars : ∀ c ∈ chars, continuesIdentifier c = true) : StartsAfresh chars := by
  intro c hc
  have hrange := toNat_of_continuesIdentifier (hchars c (List.mem_of_mem_head? hc))
  rw [Bool.or_eq_false_iff, beq_eq_false_iff_ne, beq_eq_false_iff_ne]
  refine ⟨?_, ?_⟩
  all_goals
    rintro rfl
    exact absurd hrange (by decide)

/-! ## Properties of tokens -/

variable {first second : List Token → Prop} {chars left right : List Char}

/-- Tokens with one property and, behind them, tokens with another one. -/
def Followed (first second : List Token → Prop) (tokens : List Token) : Prop :=
  ∃ before after, first before ∧ second after ∧ before ++ after = tokens

/-- A single token of a kind with a text, wherever it stands. -/
def IsToken (kind : Kind) (word : String) (tokens : List Token) : Prop :=
  ∃ position, tokens = [⟨kind, word, position⟩]

/-- A text is read as tokens with a property, wherever it ends before a delimiter. -/
def ReadsAs (property : List Token → Prop) (chars : List Char) : Prop :=
  ∀ position rest, EndsBefore rest →
    ∃ tokens, property tokens ∧ Reads position chars tokens rest

theorem ReadsAs.mono (hreads : ReadsAs first chars)
    (himplies : ∀ tokens, first tokens → second tokens) : ReadsAs second chars := by
  intro position rest hrest
  obtain ⟨tokens, hfirst, hread⟩ := hreads position rest hrest
  exact ⟨tokens, himplies tokens hfirst, hread⟩

theorem readsAs_nil : ReadsAs (· = []) [] :=
  fun _ rest _ => ⟨[], rfl, reads_nil rest⟩

theorem readsAs_word (kind : Kind) {word : String} (hspells : spells kind word.toList = true)
    (hkind : kind ≠ .endOfInput) :
    ReadsAs (IsToken kind word) word.toList :=
  fun position _ hrest => ⟨_, ⟨position, rfl⟩, reads_word hspells hkind (hrest.not_prolonged kind)⟩

theorem ReadsAs.append (hleft : ReadsAs first left) (hright : ReadsAs second right)
    (hbetween : EndsBefore right) : ReadsAs (Followed first second) (left ++ right) := by
  intro position rest hrest
  obtain ⟨before, hbefore, hreadLeft⟩ := hleft position (right ++ rest) (hbetween.append hrest)
  obtain ⟨after, hafter, hreadRight⟩ := hright (position.after left) rest hrest
  exact ⟨_, ⟨before, after, hbefore, hafter, rfl⟩, hreadLeft.append hreadRight⟩

theorem ReadsAs.behindBlank (hreads : ReadsAs first chars) : ReadsAs first (' ' :: chars) := by
  intro position rest hrest
  obtain ⟨tokens, hfirst, hread⟩ := hreads (position.next ' ') rest hrest
  exact ⟨tokens, hfirst, hread.behindBlank isBlank_space⟩

theorem ReadsAs.spaced (hleft : ReadsAs first left) (hright : ReadsAs second right) :
    ReadsAs (Followed first second) (left ++ ' ' :: right) :=
  hleft.append hright.behindBlank endsBefore_space

/-- A mark that closes the text in front of it. -/
theorem ReadsAs.closedBy (hreads : ReadsAs first chars) (kind : Kind) {word : String}
    (hspells : spells kind word.toList = true) (hkind : kind ≠ .endOfInput)
    (hword : EndsBefore word.toList) :
    ReadsAs (Followed first (IsToken kind word)) (chars ++ word.toList) :=
  hreads.append (readsAs_word kind hspells hkind) hword

/-- A word in front of a text that does not go on with it. -/
theorem ReadsAs.behindWord (hreads : ReadsAs first chars) (kind : Kind) {word : String}
    (hspells : spells kind word.toList = true) (hkind : kind ≠ .endOfInput)
    (hnext : ∀ rest, EndsBefore rest → ∀ c ∈ (chars ++ rest).head?, kind.prolongedBy c = false) :
    ReadsAs (Followed (IsToken kind word) first) (word.toList ++ chars) := by
  intro position rest hrest
  obtain ⟨tokens, hfirst, hread⟩ := hreads (position.after word.toList) rest hrest
  exact ⟨_, ⟨_, tokens, ⟨position, rfl⟩, hfirst, rfl⟩,
    hread.behindWord hspells hkind (hnext rest hrest)⟩

/-- Punctuation in front of a text. -/
theorem ReadsAs.behindMark (hreads : ReadsAs first chars) (kind : Kind) {word : String}
    (hmark : (word.toList, kind) ∈ punctuation) (hchars : StartsAfresh chars) :
    ReadsAs (Followed (IsToken kind word) first) (word.toList ++ chars) := by
  refine hreads.behindWord kind (List.all_eq_true.1 spells_punctuation _ hmark) ?_ ?_
  · have hkinds : ∀ entry ∈ punctuation, entry.2 ≠ .endOfInput := by decide
    exact hkinds _ hmark
  · intro rest hrest c hc
    rw [prolongedBy_punctuation _ hmark]
    exact hchars.append hrest.startsAfresh c hc

end WhileCompiler.Token
