import WhileCompiler.Proofs.Syntax.SpacedTokens

/-!
# Where a source cannot be read

A source is read up to the first character that no token begins with.  The tokens in front of it do
not depend on it: where a lexeme ends is decided by the one character behind it, and this character
is part of no lexeme.
-/

namespace WhileCompiler.Token

open WhileCompiler.Text

/-! ## One character of lookahead -/

section

variable {kind : Kind} {spelling word rest other : List Char}

/-- A spelling that goes on with at most one character behind a word needs only this one. -/
theorem isPrefixOf_of_head (hlength : spelling.length ≤ word.length + 1)
    (hother : ∀ c ∈ other.head?, c ∈ rest.head?)
    (hbegins : spelling.isPrefixOf (word ++ other) = true) :
    spelling.isPrefixOf (word ++ rest) = true := by
  induction word generalizing spelling with
  | nil =>
      match spelling, other with
      | [], _ => rfl
      | [s], c :: others =>
          obtain ⟨behind, rfl⟩ := List.head?_eq_some_iff.1 (hother c rfl)
          simpa [List.isPrefixOf] using hbegins
  | cons w word ih =>
      cases spelling with
      | nil => rfl
      | cons s spelling =>
          rw [List.cons_append, List.isPrefixOf_cons_cons, Bool.and_eq_true] at hbegins ⊢
          exact hbegins.imp_right (ih (Nat.le_of_succ_le_succ hlength))

theorem length_punctuation_le : ∀ entry ∈ punctuation, entry.1.length ≤ 2 := by
  decide

theorem find?_punctuation_of_head
    (hfound : punctuation.find? (fun (spelling, _) => spelling.isPrefixOf (word ++ rest)) =
      some (word, kind))
    (hother : ∀ c ∈ other.head?, c ∈ rest.head?) :
    punctuation.find? (fun (spelling, _) => spelling.isPrefixOf (word ++ other)) =
      some (word, kind) := by
  have hpositive : 0 < word.length :=
    List.length_pos_iff.2 (punctuation_ne_nil _ (List.mem_of_find?_eq_some hfound))
  obtain ⟨-, before, after, hsplit, hbefore⟩ := List.find?_eq_some_iff_append.1 hfound
  refine List.find?_eq_some_iff_append.2 ⟨?_, before, after, hsplit, fun entry hmem => ?_⟩
  · exact List.isPrefixOf_iff_prefix.2 (List.prefix_append word other)
  · have hlength := length_punctuation_le entry (hsplit ▸ List.mem_append_left _ hmem)
    have hnot := hbefore entry hmem
    rw [Bool.not_eq_true', Bool.eq_false_iff] at hnot ⊢
    intro hbegins
    exact hnot (isPrefixOf_of_head (by omega) hother hbegins)

/-- A run of characters of a class ends at the first one that is not of this class. -/
theorem takeWhile_of_length {p : Char → Bool}
    (hlength : ((word ++ rest).takeWhile p).length = word.length) :
    (word ++ rest).takeWhile p = word ∧ ∀ c ∈ rest.head?, p c = false := by
  have hrun : (word ++ rest).takeWhile p = word := by
    rw [List.prefix_iff_eq_take.1 (List.takeWhile_prefix p), hlength, List.take_left]
  have hword : ∀ c ∈ word, p c = true := by
    rw [← hrun]
    exact List.all_eq_true.1 List.all_takeWhile
  refine ⟨hrun, fun c hc => ?_⟩
  obtain ⟨behind, rfl⟩ := List.head?_eq_some_iff.1 hc
  rw [List.takeWhile_append_of_pos hword] at hrun
  have hnone : (c :: behind).takeWhile p = [] :=
    List.append_cancel_left (hrun.trans (List.append_nil word).symm)
  simpa [List.takeWhile_cons] using hnone

/-- A lexeme is a part of the text. -/
theorem length_le_of_lexeme? {chars : List Char} {length : Nat}
    (hlexeme : lexeme? chars = some (kind, length)) : length ≤ chars.length := by
  have hshorter {spelling : List Char} (hbegins : spelling.isPrefixOf chars = true) :
      spelling.length ≤ chars.length :=
    (List.isPrefixOf_iff_prefix.1 hbegins).length_le
  unfold lexeme? at hlexeme
  split at hlexeme
  · next hfound =>
      cases hlexeme
      exact hshorter (by simpa using List.find?_some hfound)
  · simp only at hlexeme
    split at hlexeme
    · cases hlexeme
      exact (List.takeWhile_prefix Char.isDigit).length_le
    · split at hlexeme
      · next hfound =>
          cases hlexeme
          exact hshorter (by simpa using List.find?_some hfound)
      · split at hlexeme
        · cases hlexeme
        · split at hlexeme
          · cases hlexeme
            exact Nat.succ_le_succ (List.takeWhile_prefix continuesIdentifier).length_le
          · cases hlexeme

theorem spells_of_lexeme? (hlexeme : lexeme? (word ++ rest) = some (kind, word.length)) :
    spells kind word = true := by
  simpa only [List.take_left] using spells_lexeme hlexeme

/-- A word ends in front of the first character that continues none. -/
theorem lexeme?_word_of_length {first : Char} (hstarts : startsIdentifier first = true)
    (htruth : truthValues.any (fun spelling => spelling.isPrefixOf (first :: word)) = false)
    (hlength : ((word ++ rest).takeWhile continuesIdentifier).length = word.length)
    (hother : ∀ c ∈ other.head?, c ∈ rest.head?) :
    lexeme? (first :: word ++ other) = some (wordKind (first :: word), word.length + 1) := by
  obtain ⟨hrun, hend⟩ := takeWhile_of_length hlength
  have hidentifier : isIdentifier (first :: word) = true := by
    rw [isIdentifier, hstarts, Bool.true_and, ← hrun, List.all_takeWhile]
  exact lexeme?_word hidentifier htruth fun c hc => hend c (hother c hc)

/-- Where a lexeme ends is decided by the one character behind it. -/
theorem lexeme?_of_head (hlexeme : lexeme? (word ++ rest) = some (kind, word.length))
    (hother : ∀ c ∈ other.head?, c ∈ rest.head?) :
    lexeme? (word ++ other) = some (kind, word.length) := by
  have hword : word ≠ [] := List.length_pos_iff.1 (length_pos_of_lexeme? hlexeme)
  have hspells := spells_of_lexeme? hlexeme
  -- The cases are the rules in the order in which they are tried.
  unfold lexeme? at hlexeme
  split at hlexeme
  · next spelling _ hfound =>
      simp only [Option.some.injEq, Prod.mk.injEq] at hlexeme
      obtain ⟨rfl, hlength⟩ := hlexeme
      have hbegins : spelling.isPrefixOf (word ++ rest) = true := by
        simpa using List.find?_some hfound
      obtain rfl : word = spelling := by
        rw [← take_of_isPrefixOf hbegins, hlength, List.take_left]
      unfold lexeme?
      rw [find?_punctuation_of_head hfound hother]
  · simp only at hlexeme
    split at hlexeme
    · simp only [Option.some.injEq, Prod.mk.injEq] at hlexeme
      obtain ⟨rfl, hlength⟩ := hlexeme
      have hend := (takeWhile_of_length hlength).2
      exact lexeme?_numeral hspells fun c hc => hend c (hother c hc)
    · split at hlexeme
      · simp only [Option.some.injEq, Prod.mk.injEq] at hlexeme
        obtain ⟨rfl, -⟩ := hlexeme
        exact lexeme?_truthValue (List.contains_iff_mem.1 hspells)
      · next hnone =>
          obtain ⟨first, word, rfl⟩ := List.exists_cons_of_ne_nil hword
          rw [List.cons_append] at hlexeme
          simp only at hlexeme
          split at hlexeme
          · next hstarts =>
              simp only [Option.some.injEq, Prod.mk.injEq, List.length_cons,
                Nat.add_right_cancel_iff] at hlexeme
              obtain ⟨hkind, hlength⟩ := hlexeme
              rw [← hkind, (takeWhile_of_length hlength).1]
              exact lexeme?_word_of_length hstarts (not_startsTruthValue rfl hnone) hlength hother
          · cases hlexeme

theorem reads_lexeme {position : Position}
    (hlexeme : lexeme? (word ++ rest) = some (kind, word.length)) :
    Reads position word [⟨kind, String.ofList word, position⟩] rest := by
  have hword : word ≠ [] := List.length_pos_iff.1 (length_pos_of_lexeme? hlexeme)
  have hhead : ∀ c ∈ (word ++ rest).head?, isBlank c = false := by
    rw [List.head?_append_of_ne_nil word hword]
    exact isBlank_head_of_spells (spells_of_lexeme? hlexeme)
  rw [Reads, scan_of_lexeme? hhead hlexeme, List.take_left, List.drop_left]
  rfl

end

/-! ## Characters that begin no lexeme -/

section

variable {found : Char} {after other : List Char}

/-- Lexemes begin with the characters of words and with punctuation, and with nothing else. -/
theorem lexeme?_eq_none_iff : lexeme? (found :: after) = none ↔
    continuesIdentifier found = false ∧ ∀ entry ∈ punctuation, ¬ entry.1 <+: found :: after := by
  constructor
  · intro hnone
    unfold lexeme? at hnone
    split at hnone
    · cases hnone
    · next hpunctuation =>
        simp only at hnone
        split at hnone
        · cases hnone
        · next hdigits =>
            split at hnone
            · cases hnone
            · split at hnone
              · cases hnone
              · next hstarts =>
                  have hdigit : ¬ found.isDigit = true := by
                    intro hdigit
                    exact hdigits (by simp [hdigit])
                  refine ⟨?_, fun entry hmem hbegins => ?_⟩
                  · rw [Bool.eq_false_iff, ne_eq, continuesIdentifier_iff]
                    exact not_or.2 ⟨hstarts, hdigit⟩
                  · exact List.find?_eq_none.1 hpunctuation entry hmem
                      (List.isPrefixOf_iff_prefix.2 hbegins)
  · rintro ⟨hcontinues, hpunctuation⟩
    rw [Bool.eq_false_iff, ne_eq, continuesIdentifier_iff, not_or] at hcontinues
    have hnone : punctuation.find? (fun (spelling, _) => spelling.isPrefixOf (found :: after)) =
        none := by
      rw [List.find?_eq_none]
      intro entry hmem hbegins
      exact hpunctuation entry hmem (List.isPrefixOf_iff_prefix.1 hbegins)
    have hdigits : (found :: after).takeWhile Char.isDigit = [] :=
      List.takeWhile_cons_of_neg hcontinues.2
    have htruth : truthValues.find? (fun spelling => spelling.isPrefixOf (found :: after)) =
        none := by
      rw [List.find?_eq_none]
      intro spelling hmem hbegins
      obtain ⟨first, others, rfl⟩ := List.exists_cons_of_ne_nil (truthValues_ne_nil spelling hmem)
      obtain ⟨rfl, -⟩ := List.cons_prefix_cons.1 (List.isPrefixOf_iff_prefix.1 hbegins)
      have hfirst : continuesIdentifier first = true :=
        List.all_eq_true.1 (truthValues_continue _ hmem) first List.mem_cons_self
      exact not_or.2 hcontinues (continuesIdentifier_iff.1 hfirst)
    unfold lexeme?
    rw [hnone, hdigits, htruth]
    exact if_neg hcontinues.1

/-- The first character of punctuation is punctuation by itself, unless it is an equals sign. -/
theorem punctuation_first : ∀ entry ∈ punctuation, entry.1 = ['=', '='] ∨
    ∃ single ∈ punctuation, single.1 = entry.1.take 1 := by
  decide

/-- A character that begins no lexeme begins none in front of another text either, but for an equals
sign in front of another one. -/
theorem lexeme?_cons_eq_none (hnone : lexeme? (found :: after) = none)
    (hother : found = '=' → other.head? ≠ some '=') : lexeme? (found :: other) = none := by
  rw [lexeme?_eq_none_iff] at hnone ⊢
  refine ⟨hnone.1, fun entry hmem hbegins => ?_⟩
  rcases punctuation_first entry hmem with hequal | ⟨single, hsingle, hfirst⟩
  · rw [hequal] at hbegins
    obtain ⟨hfound, behind, rfl⟩ := List.cons_prefix_cons.1 hbegins
    exact hother hfound.symm rfl
  · obtain ⟨first, others, hentry⟩ := List.exists_cons_of_ne_nil (punctuation_ne_nil entry hmem)
    rw [hentry] at hbegins hfirst
    obtain ⟨rfl, -⟩ := List.cons_prefix_cons.1 hbegins
    have hbegins : [first] <+: first :: after := ⟨after, rfl⟩
    exact hnone.2 single hsingle (hfirst ▸ hbegins)

theorem scan_of_foreign {position : Position} (hblank : isBlank found = false)
    (hnone : lexeme? (found :: after) = none) :
    scan position (found :: after) = .error ⟨position, found⟩ := by
  have hfound : ¬ isBlank found = true := Bool.eq_false_iff.1 hblank
  rw [scan_eq, List.takeWhile_cons_of_neg hfound, List.dropWhile_cons_of_neg hfound]
  simp only [hnone, Position.after_nil]

end

/-! ## The first fault of a source -/

/-- A text that begins at a position is read as tokens up to a character that begins no lexeme, and
the same tokens are read where the text ends in front of this character. -/
structure StopsAt (start : Position) (before : List Char) (tokens : List Token)
    (error : LexicalError) (after : List Char) : Prop where
  position : error.position = start.after before
  notBlank : isBlank error.found = false
  noLexeme : lexeme? (error.found :: after) = none
  reads : ∀ rest, (∀ c ∈ rest.head?, c = error.found) → Reads start before tokens rest

/-- A scan fails at one character, behind the tokens that it has read. -/
theorem exists_stopsAt {start : Position} {chars : List Char} {error : LexicalError}
    (hscan : scan start chars = .error error) :
    ∃ before tokens after, chars = before ++ error.found :: after ∧
      StopsAt start before tokens error after := by
  fun_induction scan start chars with
  | case1 => cases hscan
  | case2 start chars here found following htext hnone =>
      obtain rfl := Except.error.inj hscan
      have hsplit := List.takeWhile_append_dropWhile (p := isBlank) (l := chars)
      have hhead := List.head?_dropWhile_not isBlank chars
      rw [htext] at hsplit hhead
      exact ⟨_, [], following, hsplit.symm, rfl, hhead, hnone,
        fun rest _ => reads_blanks (blank_takeWhile chars) rest⟩
  | case3 start chars here found following htext kind length hlexeme spelling hlt fault hfault =>
      rename_i ih
      obtain rfl := Except.error.inj hscan
      obtain ⟨before, tokens, after, hrest, hstops⟩ := ih hfault
      have hlength : spelling.length = length :=
        List.length_take_of_le (length_le_of_lexeme? hlexeme)
      have hfollowing : found :: following = spelling ++ (before ++ fault.found :: after) := by
        rw [← hrest, List.take_append_drop]
      rw [hfollowing, ← hlength] at hlexeme
      refine ⟨chars.takeWhile isBlank ++ (spelling ++ before),
        [⟨kind, String.ofList spelling, here⟩] ++ tokens, after, ?_, ?_, hstops.notBlank,
        hstops.noLexeme, fun rest hhead => ?_⟩
      · calc
          chars = chars.takeWhile isBlank ++ (found :: following) := by
            rw [← htext, List.takeWhile_append_dropWhile]
          _ = chars.takeWhile isBlank ++ (spelling ++ before) ++ fault.found :: after := by
            rw [hfollowing, List.append_assoc, List.append_assoc]
      · rw [hstops.position, Position.after_append, Position.after_append]
      · refine Reads.behindBlanks ?_ (blank_takeWhile chars)
        refine Reads.append (reads_lexeme (lexeme?_of_head hlexeme ?_)) (hstops.reads rest hhead)
        -- The one character that tells where the lexeme ends is the same before every such rest.
        cases before with
        | nil => exact fun c hc => hhead c hc ▸ rfl
        | cons first before => exact fun c hc => hc
  | case4 => cases hscan

/-- A source is read up to a character, where the end of the input would be as well, and fails at it
with whatever stands behind it: no token begins with the character. -/
structure IsFirstForeign (before : List Char) (error : LexicalError) (after : List Char) :
    Prop where
  readable : ∃ tokens, ofSource (String.ofList before) =
    .ok (tokens ++ [⟨.endOfInput, "", error.position⟩])
  notBlank : isBlank error.found = false
  notOfWord : continuesIdentifier error.found = false
  noPunctuation : ∀ entry ∈ punctuation, ¬ entry.1 <+: error.found :: after
  /-- Two equals signs are a token, and one is none. -/
  fails : ∀ other, (error.found = '=' → other.head? ≠ some '=') →
    ofSource (String.ofList (before ++ error.found :: other)) = .error error

theorem StopsAt.isFirstForeign {before after : List Char} {tokens : List Token}
    {error : LexicalError} (hstops : StopsAt .start before tokens error after) :
    IsFirstForeign before error after where
  readable := by
    have hreads : Reads .start (String.ofList before).toList tokens [] := by
      rw [String.toList_ofList]
      exact hstops.reads [] nofun
    refine ⟨tokens, ?_⟩
    rw [hreads.ofSource, String.toList_ofList, hstops.position]
  notBlank := hstops.notBlank
  notOfWord := (lexeme?_eq_none_iff.1 hstops.noLexeme).1
  noPunctuation := (lexeme?_eq_none_iff.1 hstops.noLexeme).2
  fails other hother := by
    have hnone := lexeme?_cons_eq_none hstops.noLexeme hother
    have hreads := hstops.reads (error.found :: other) fun c hc => (Option.some.inj hc).symm
    rw [ofSource, String.toList_ofList, hreads, scan_of_foreign hstops.notBlank hnone,
      ← hstops.position]
    rfl

/-- A source that cannot be read fails at its first character that no token begins with: what
stands in front of it can be read, and what stands behind it makes no difference. -/
theorem ofSource_fails_at_first_foreign (source : String) (error : LexicalError)
    (herror : ofSource source = .error error) :
    ∃ before after, source.toList = before ++ error.found :: after ∧
      IsFirstForeign before error after := by
  obtain ⟨before, tokens, after, hsource, hstops⟩ := exists_stopsAt herror
  exact ⟨before, after, hsource, hstops.isFirstForeign⟩

/-- The single equals sign stands behind a comparison, a space outside ASCII and the end of a
line. -/
theorem ofSource_fails_at_first_foreign_equals :
    ofSource "n\u2003<=\r\nm = 3;" = .error ⟨⟨2, 3⟩, '='⟩ ∧
      ∃ before after, "n\u2003<=\r\nm = 3;".toList = before ++ '=' :: after ∧
        IsFirstForeign before ⟨⟨2, 3⟩, '='⟩ after := by
  have herror : ofSource "n\u2003<=\r\nm = 3;" = .error ⟨⟨2, 3⟩, '='⟩ := by
    decide +kernel
  exact ⟨herror, ofSource_fails_at_first_foreign _ _ herror⟩

end WhileCompiler.Token
