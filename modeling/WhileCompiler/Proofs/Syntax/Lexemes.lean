import Mathlib.Data.List.Basic
import Mathlib.Data.List.Find
import WhileCompiler.Proofs.Syntax.Tokens
import WhileCompiler.Proofs.Text.Words

/-!
# Writing lexemes

Every text that tokens of a kind have is read as a token of this kind, unless it stands in front of
a character that belongs to a longer spelling.  So a text that is made of such texts is read piece
by piece.
-/

namespace WhileCompiler.Token

open WhileCompiler.Text

/-- Whether a character behind a text of a kind may belong to a longer spelling. -/
def Kind.prolongedBy : Kind → Char → Bool
  | .integer, c => c.isDigit
  | .boolean, _ => false
  | .identifier, c | .ifWord, c | .thenWord, c | .elseWord, c | .whileWord, c | .doWord, c =>
    continuesIdentifier c
  | _, c => c == '=' || c == '>'

/-- A spelling that begins in a word ends there, unless the text behind the word goes on with it. -/
theorem isPrefixOf_append_of_head {prolongs : Char → Bool} {spelling word rest : List Char}
    (hspelling : ∀ c ∈ spelling, prolongs c = true) (hrest : ∀ c ∈ rest.head?, prolongs c = false) :
    spelling.isPrefixOf (word ++ rest) = spelling.isPrefixOf word := by
  induction word generalizing spelling with
  | nil =>
      cases spelling with
      | nil => simp
      | cons s spelling =>
          cases rest with
          | nil => rfl
          | cons r rest =>
              have hne : s ≠ r := by
                rintro rfl
                have hprolongs := hspelling s List.mem_cons_self
                rw [hrest s rfl] at hprolongs
                cases hprolongs
              simp [List.isPrefixOf, hne]
  | cons w word ih =>
      cases spelling with
      | nil => simp
      | cons s spelling =>
          rw [List.cons_append, List.isPrefixOf_cons_cons, List.isPrefixOf_cons_cons]
          rw [ih fun c hc => hspelling c (List.mem_cons_of_mem s hc)]

theorem takeWhile_append_of_head {p : Char → Bool} {word rest : List Char}
    (hword : ∀ c ∈ word, p c = true) (hrest : ∀ c ∈ rest.head?, p c = false) :
    (word ++ rest).takeWhile p = word := by
  have hnone : rest.takeWhile p = [] := by
    cases rest with
    | nil => rfl
    | cons c rest => exact List.takeWhile_cons_of_neg (by simp [hrest c rfl])
  rw [List.takeWhile_append_of_pos hword, hnone, List.append_nil]

/-! ## One lexeme by each rule -/

section

variable {kind : Kind} {first : Char} {word rest : List Char}

/-- Only an equals or a greater sign goes on with punctuation. -/
theorem punctuation_tail :
    ∀ entry ∈ punctuation, entry.1.tail.all (fun c => c == '=' || c == '>') = true := by
  decide

/-- Among the spellings of punctuation that a spelling begins with, it is the first. -/
theorem find?_punctuation_self : ∀ entry ∈ punctuation,
    punctuation.find? (fun (spelling, _) => spelling.isPrefixOf entry.1) = some entry := by
  decide

theorem punctuation_head :
    ∀ entry ∈ punctuation, entry.1.head?.any continuesIdentifier = false := by
  decide

theorem lexeme?_punctuation (hmem : (word, kind) ∈ punctuation)
    (hrest : ∀ c ∈ rest.head?, (c == '=' || c == '>') = false) :
    lexeme? (word ++ rest) = some (kind, word.length) := by
  -- A longer spelling would need its second character, at the latest, from the rest.
  have hagree : ∀ entry ∈ punctuation,
      entry.1.isPrefixOf (word ++ rest) = entry.1.isPrefixOf word := by
    rintro ⟨spelling, other⟩ hentry
    cases word with
    | nil => exact absurd rfl (punctuation_ne_nil _ hmem)
    | cons w word =>
        cases spelling with
        | nil => rfl
        | cons s spelling =>
            have htail : ∀ c ∈ spelling, (c == '=' || c == '>') = true :=
              List.all_eq_true.1 (punctuation_tail _ hentry)
            rw [List.cons_append, List.isPrefixOf_cons_cons, List.isPrefixOf_cons_cons]
            rw [isPrefixOf_append_of_head htail hrest]
  have hfound : punctuation.find? (fun (spelling, _) => spelling.isPrefixOf (word ++ rest)) =
      some (word, kind) :=
    (List.find?_congr hagree).trans (find?_punctuation_self _ hmem)
  unfold lexeme?
  rw [hfound]

theorem find?_punctuation_eq_none (hfirst : continuesIdentifier first = true) :
    punctuation.find? (fun (spelling, _) => spelling.isPrefixOf (first :: rest)) = none := by
  rw [List.find?_eq_none]
  rintro ⟨spelling, other⟩ hentry hbegins
  cases spelling with
  | nil => exact punctuation_ne_nil _ hentry rfl
  | cons s spelling =>
      have hsame : (s == first) = true := (Bool.and_eq_true_iff.1 hbegins).1
      obtain rfl := eq_of_beq hsame
      have hs : continuesIdentifier s = false := punctuation_head _ hentry
      rw [hs] at hfirst
      cases hfirst

theorem lexeme?_numeral (hword : isNumeral word = true)
    (hrest : ∀ c ∈ rest.head?, c.isDigit = false) :
    lexeme? (word ++ rest) = some (.integer, word.length) := by
  obtain ⟨hne, hdigits⟩ := isNumeral_iff.1 hword
  obtain ⟨first, others, rfl⟩ := List.exists_cons_of_ne_nil hne
  have hfirst := continuesIdentifier_iff.2 (.inr (hdigits first List.mem_cons_self))
  unfold lexeme?
  rw [List.cons_append, find?_punctuation_eq_none hfirst, ← List.cons_append,
    takeWhile_append_of_head hdigits hrest]
  exact if_pos hne

theorem truthValues_continue :
    ∀ spelling ∈ truthValues, spelling.all continuesIdentifier = true := by
  decide

/-- In front of a letter or an underscore the rules for punctuation and for numerals fail. -/
theorem lexeme?_cons_of_startsIdentifier (hfirst : startsIdentifier first = true) :
    lexeme? (first :: rest) =
      match truthValues.find? fun spelling => spelling.isPrefixOf (first :: rest) with
      | some spelling => some (.boolean, spelling.length)
      | none =>
        let word := first :: rest.takeWhile continuesIdentifier
        some (wordKind word, word.length) := by
  have hcontinues := continuesIdentifier_iff.2 (.inl hfirst)
  have hdigits : (first :: rest).takeWhile Char.isDigit = [] :=
    List.takeWhile_cons_of_neg (by simp [isDigit_of_startsIdentifier hfirst])
  unfold lexeme?
  rw [find?_punctuation_eq_none hcontinues, hdigits]
  cases truthValues.find? fun spelling => spelling.isPrefixOf (first :: rest) with
  | none => exact if_pos hfirst
  | some spelling => rfl

theorem lexeme?_truthValue (hword : word ∈ truthValues) :
    lexeme? (word ++ rest) = some (.boolean, word.length) := by
  simp only [truthValues, List.mem_cons, List.not_mem_nil, or_false] at hword
  rcases hword with rfl | rfl
  · exact lexeme?_cons_of_startsIdentifier (by decide)
  · exact lexeme?_cons_of_startsIdentifier (by decide)

theorem lexeme?_word (hword : isIdentifier word = true)
    (htruth : truthValues.any (fun spelling => spelling.isPrefixOf word) = false)
    (hrest : ∀ c ∈ rest.head?, continuesIdentifier c = false) :
    lexeme? (word ++ rest) = some (wordKind word, word.length) := by
  cases word with
  | nil => cases hword
  | cons first others =>
      simp only [isIdentifier, Bool.and_eq_true, List.all_eq_true] at hword
      have hnone : truthValues.find?
          (fun spelling => spelling.isPrefixOf (first :: others ++ rest)) = none := by
        rw [List.find?_eq_none]
        intro spelling hmem
        have hcontinues := List.all_eq_true.1 (truthValues_continue spelling hmem)
        rw [isPrefixOf_append_of_head hcontinues hrest]
        exact List.any_eq_false.1 htruth spelling hmem
      rw [List.cons_append] at hnone ⊢
      rw [lexeme?_cons_of_startsIdentifier hword.1, hnone]
      simp only [takeWhile_append_of_head hword.2 hrest]

theorem wordKind_of_isName (hname : isName word = true) : wordKind word = .identifier := by
  simp only [isName, Bool.and_eq_true, Bool.not_eq_true', List.contains_eq_any_beq,
    List.any_map, List.any_eq_false] at hname
  have hlookup : keywords.lookup word = none := by
    rw [List.lookup_eq_none_iff]
    intro entry hmem
    simpa using hname.1.2 entry hmem
  rw [wordKind, hlookup, Option.getD_none]

end

/-! ## The first lexeme of a text -/

/-- The blanks in front of a text only move the position of its first lexeme. -/
theorem scan_eq (position : Position) (chars : List Char) :
    scan position chars =
      let here := position.after (chars.takeWhile isBlank)
      match chars.dropWhile isBlank with
      | [] => .ok [⟨.endOfInput, "", here⟩]
      | found :: following =>
        match lexeme? (found :: following) with
        | none => .error ⟨here, found⟩
        | some (kind, length) =>
          let spelling := (found :: following).take length
          (scan (here.after spelling) ((found :: following).drop length)).map
            (⟨kind, String.ofList spelling, here⟩ :: ·) := by
  rw [scan]
  split
  · next htext => simp only [htext]
  · next found following htext =>
      simp only [htext]
      split
      · next hnone => simp only [hnone]
      · next hlexeme =>
          simp only [hlexeme]
          split
          · next hfault => rw [hfault, Except.map]
          · next htokens => rw [htokens, Except.map]

section

variable {kind : Kind} {word rest : List Char}

theorem prolongedBy_punctuation :
    ∀ entry ∈ punctuation, ∀ c, entry.2.prolongedBy c = (c == '=' || c == '>') := by
  simp [punctuation, Kind.prolongedBy]

theorem prolongedBy_keyword :
    ∀ entry ∈ keywords, ∀ c, entry.2.prolongedBy c = continuesIdentifier c := by
  simp [keywords, Kind.prolongedBy]

theorem keywords_are_words : ∀ entry ∈ keywords, isIdentifier entry.1 = true ∧
    truthValues.any (fun spelling => spelling.isPrefixOf entry.1) = false ∧
      wordKind entry.1 = entry.2 := by
  decide

theorem lexeme?_of_spells (hspells : spells kind word = true) (hne : word ≠ [])
    (hrest : ∀ c ∈ rest.head?, kind.prolongedBy c = false) :
    lexeme? (word ++ rest) = some (kind, word.length) := by
  unfold spells at hspells
  split at hspells
  · exact lexeme?_numeral hspells hrest
  · exact lexeme?_truthValue (List.contains_iff_mem.1 hspells)
  · rw [← wordKind_of_isName hspells]
    simp only [isName, Bool.and_eq_true, Bool.not_eq_true'] at hspells
    exact lexeme?_word hspells.1.1 hspells.2 hrest
  · exact absurd (List.isEmpty_iff.1 hspells) hne
  · rcases Bool.or_eq_true_iff.1 hspells with hpunctuation | hkeyword
    · have hmem := List.contains_iff_mem.1 hpunctuation
      simp only [prolongedBy_punctuation _ hmem] at hrest
      exact lexeme?_punctuation hmem hrest
    · have hmem := List.contains_iff_mem.1 hkeyword
      obtain ⟨hidentifier, htruth, hkind⟩ := keywords_are_words _ hmem
      simp only [prolongedBy_keyword _ hmem] at hrest
      exact (lexeme?_word hidentifier htruth hrest).trans (by rw [hkind])

theorem ne_nil_of_spells (hspells : spells kind word = true) (hkind : kind ≠ .endOfInput) :
    word ≠ [] := by
  have hempty : ∀ kind ∈ Kind.all, spells kind [] = true → kind = .endOfInput := by decide
  rintro rfl
  exact hkind (hempty kind (Kind.mem_all kind) hspells)

/-- The kinds of tokens without a mark in their texts. -/
def wordKinds : List Kind :=
  [.integer, .boolean, .identifier, .endOfInput, .ifWord, .thenWord, .elseWord, .whileWord, .doWord]

theorem word_or_punctuation_of_spells (hspells : spells kind word = true) :
    (kind ∈ wordKinds ∧ ∀ c ∈ word, continuesIdentifier c = true) ∨ (word, kind) ∈ punctuation := by
  unfold spells at hspells
  split at hspells
  · have hdigits := (isNumeral_iff.1 hspells).2
    exact .inl ⟨by decide, fun c hc => continuesIdentifier_iff.2 (.inr (hdigits c hc))⟩
  · have hcontinues := truthValues_continue word (List.contains_iff_mem.1 hspells)
    exact .inl ⟨by decide, List.all_eq_true.1 hcontinues⟩
  · simp only [isName, Bool.and_eq_true] at hspells
    exact .inl ⟨by decide, continuesIdentifier_of_mem hspells.1.1⟩
  · rw [List.isEmpty_iff.1 hspells]
    exact .inl ⟨by decide, fun _ hc => absurd hc List.not_mem_nil⟩
  · rcases Bool.or_eq_true_iff.1 hspells with hpunctuation | hkeyword
    · exact .inr (List.contains_iff_mem.1 hpunctuation)
    · have hmem := List.contains_iff_mem.1 hkeyword
      have hkinds : ∀ entry ∈ keywords, entry.2 ∈ wordKinds := by decide
      exact .inl ⟨hkinds _ hmem, continuesIdentifier_of_mem (keywords_are_words _ hmem).1⟩

theorem isBlank_punctuation_head :
    ∀ entry ∈ punctuation, entry.1.head?.any isBlank = false := by
  decide

/-- No text of a token begins with a blank. -/
theorem isBlank_head_of_spells (hspells : spells kind word = true) :
    ∀ c ∈ word.head?, isBlank c = false := by
  rcases word_or_punctuation_of_spells hspells with ⟨-, hcontinues⟩ | hmem
  · exact fun c hc => isBlank_of_continuesIdentifier (hcontinues c (List.mem_of_mem_head? hc))
  · exact fun c hc => (Option.any_eq_false _ _).1 (isBlank_punctuation_head _ hmem) c hc

theorem scan_of_lexeme? {position : Position} {chars : List Char} {length : Nat}
    (hhead : ∀ c ∈ chars.head?, isBlank c = false)
    (hlexeme : lexeme? chars = some (kind, length)) :
    scan position chars =
      (scan (position.after (chars.take length)) (chars.drop length)).map
        (⟨kind, String.ofList (chars.take length), position⟩ :: ·) := by
  cases chars with
  | nil => cases hlexeme
  | cons first others =>
      have hfirst : ¬ isBlank first = true := by simp [hhead first rfl]
      rw [scan_eq, List.takeWhile_cons_of_neg hfirst, List.dropWhile_cons_of_neg hfirst]
      simp only [hlexeme]
      rfl

theorem scan_append_of_spells {position : Position} (hspells : spells kind word = true)
    (hne : word ≠ []) (hrest : ∀ c ∈ rest.head?, kind.prolongedBy c = false) :
    scan position (word ++ rest) =
      (scan (position.after word) rest).map (⟨kind, String.ofList word, position⟩ :: ·) := by
  have hlexeme := lexeme?_of_spells hspells hne hrest
  have hhead : ∀ c ∈ (word ++ rest).head?, isBlank c = false := by
    rw [List.head?_append_of_ne_nil word hne]
    exact isBlank_head_of_spells hspells
  rw [scan_of_lexeme? hhead hlexeme, List.take_left, List.drop_left]

end

/-! ## Texts made of several lexemes -/

/-- A text is read as tokens, and reading goes on with the rest behind it. -/
def Reads (position : Position) (chars : List Char) (tokens : List Token) (rest : List Char) :
    Prop :=
  scan position (chars ++ rest) = (scan (position.after chars) rest).map (tokens ++ ·)

variable {position : Position}

theorem reads_word {kind : Kind} {word : String} {rest : List Char}
    (hspells : spells kind word.toList = true) (hkind : kind ≠ .endOfInput)
    (hrest : ∀ c ∈ rest.head?, kind.prolongedBy c = false) :
    Reads position word.toList [⟨kind, word, position⟩] rest := by
  rw [Reads, scan_append_of_spells hspells (ne_nil_of_spells hspells hkind) hrest,
    String.ofList_toList]
  rfl

theorem reads_nil (rest : List Char) : Reads position [] [] rest := by
  rw [Reads, List.nil_append, Position.after_nil]
  cases scan position rest <;> rfl

theorem Reads.append {left right rest : List Char} {tokens others : List Token}
    (hleft : Reads position left tokens (right ++ rest))
    (hright : Reads (position.after left) right others rest) :
    Reads position (left ++ right) (tokens ++ others) rest := by
  rw [Reads, List.append_assoc, hleft, hright, Position.after_append]
  cases scan ((position.after left).after right) rest with
  | error fault => rfl
  | ok read => simp [Except.map]

theorem Reads.behindWord {kind : Kind} {word : String} {chars rest : List Char}
    {tokens : List Token} (hreads : Reads (position.after word.toList) chars tokens rest)
    (hspells : spells kind word.toList = true) (hkind : kind ≠ .endOfInput)
    (hnext : ∀ c ∈ (chars ++ rest).head?, kind.prolongedBy c = false) :
    Reads position (word.toList ++ chars) (⟨kind, word, position⟩ :: tokens) rest :=
  (reads_word hspells hkind hnext).append hreads

theorem scan_blank_cons {c : Char} (hblank : isBlank c = true) (rest : List Char) :
    scan position (c :: rest) = scan (position.next c) rest := by
  rw [scan_eq, scan_eq (position.next c), List.takeWhile_cons_of_pos hblank,
    List.dropWhile_cons_of_pos hblank, Position.after_cons]

theorem Reads.behindBlank {c : Char} {chars rest : List Char} {tokens : List Token}
    (hreads : Reads (position.next c) chars tokens rest) (hblank : isBlank c = true) :
    Reads position (c :: chars) tokens rest := by
  rw [Reads, List.cons_append, scan_blank_cons hblank, hreads, Position.after_cons]

/-- A text with nothing behind it is read as its tokens and the end of the input. -/
theorem Reads.ofSource {source : String} {tokens : List Token}
    (hreads : Reads .start source.toList tokens []) :
    ofSource source = .ok (tokens ++ [⟨.endOfInput, "", Position.start.after source.toList⟩]) := by
  rw [Reads, List.append_nil] at hreads
  rw [Token.ofSource, hreads, scan]
  rfl

end WhileCompiler.Token
