import WhileCompiler.Proofs.Syntax.Tokens
import WhileCompiler.Proofs.Text.Positions

/-!
# The layout of a source

A source that is read consists of its tokens with blanks between them: nothing is left out, and
nothing is read twice.  Each token stands where it says it does.
-/

namespace WhileCompiler.Token

open WhileCompiler.Text

/-- A token of a source and the blanks in front of it. -/
structure Placed where
  gap : List Char
  token : Token

/-- The characters that a token and the blanks in front of it take up. -/
def Placed.chars (word : Placed) : List Char :=
  word.gap ++ word.token.text.toList

/-- Whether a token begins behind a text and ends as many columns later as it has characters.  Lines
and columns are counted from one, and carriage returns take no column. -/
structure StandsBehind (before : List Char) (token : Token) : Prop where
  line : token.position.line = 1 + before.count '\n'
  column : token.position.column = 1 + (lastLine before).countP (· ≠ '\r')
  endColumn : token.endColumn =
    1 + (lastLine before).countP (· ≠ '\r') + token.text.toList.length

/-- A token that ends where its text does is known by the position where it begins. -/
theorem standsBehind_of_position {before : List Char} {position : Position} (kind : Kind)
    (text : String) (hposition : position = Position.start.after before) :
    StandsBehind before ⟨kind, text, position⟩ := by
  rw [Position.after_start_eq] at hposition
  subst hposition
  exact ⟨rfl, rfl, congrArg _ String.length_toList.symm⟩

/-- The tokens of a text that stands behind another one, with the blanks around them. -/
structure Layout (before : List Char) (words : List Placed) (gap : List Char) (finish : Token) :
    Prop where
  blankBefore : ∀ word ∈ words, ∀ c ∈ word.gap, isBlank c = true
  blankAtEnd : ∀ c ∈ gap, isBlank c = true
  nonempty : ∀ word ∈ words, word.token.text.toList ≠ []
  spelled : ∀ word ∈ words, spells word.token.kind word.token.text.toList = true
  position : ∀ left word right, words = left ++ word :: right →
    word.token.StandsBehind (before ++ left.flatMap Placed.chars ++ word.gap)
  finishKind : finish.kind = .endOfInput
  finishText : finish.text.toList = []
  finishPosition : finish.StandsBehind (before ++ words.flatMap Placed.chars ++ gap)

theorem blank_takeWhile (chars : List Char) : ∀ c ∈ chars.takeWhile isBlank, isBlank c = true :=
  List.all_eq_true.1 List.all_takeWhile

theorem layout_nil {before gap : List Char} {finish : Token}
    (hgap : ∀ c ∈ gap, isBlank c = true) (hkind : finish.kind = .endOfInput)
    (htext : finish.text.toList = []) (hposition : finish.StandsBehind (before ++ gap)) :
    Layout before [] gap finish where
  blankBefore := nofun
  blankAtEnd := hgap
  nonempty := nofun
  spelled := nofun
  position left word right hwords := by simp at hwords
  finishKind := hkind
  finishText := htext
  finishPosition := by simpa using hposition

theorem Layout.cons {before gap : List Char} {word : Placed} {words : List Placed} {finish : Token}
    (hlayout : Layout (before ++ word.chars) words gap finish)
    (hblank : ∀ c ∈ word.gap, isBlank c = true) (hnonempty : word.token.text.toList ≠ [])
    (hspelled : spells word.token.kind word.token.text.toList = true)
    (hposition : word.token.StandsBehind (before ++ word.gap)) :
    Layout before (word :: words) gap finish where
  blankBefore := List.forall_mem_cons.2 ⟨hblank, hlayout.blankBefore⟩
  blankAtEnd := hlayout.blankAtEnd
  nonempty := List.forall_mem_cons.2 ⟨hnonempty, hlayout.nonempty⟩
  spelled := List.forall_mem_cons.2 ⟨hspelled, hlayout.spelled⟩
  position left other right hwords := by
    cases left with
    | nil =>
        obtain ⟨rfl, rfl⟩ := List.cons.inj hwords
        simpa using hposition
    | cons first left =>
        obtain ⟨rfl, hothers⟩ := List.cons.inj hwords
        simpa using hlayout.position left other right hothers
  finishKind := hlayout.finishKind
  finishText := hlayout.finishText
  finishPosition := by simpa using hlayout.finishPosition

/-- The rest of a source is laid out behind what has been read of it. -/
theorem exists_layout {position : Position} {chars : List Char} {tokens : List Token}
    (hscan : scan position chars = .ok tokens) :
    ∀ before, position = Position.start.after before →
      ∃ words gap finish, tokens = words.map Placed.token ++ [finish] ∧
        chars = words.flatMap Placed.chars ++ gap ∧ Layout before words gap finish := by
  fun_induction scan position chars generalizing tokens with
  | case1 position chars here =>
      rename_i htext
      rintro before rfl
      obtain rfl := Except.ok.inj hscan
      -- Nothing but white space is left in front of the end.
      have hblank : chars.takeWhile isBlank = chars := by
        have hsplit := List.takeWhile_append_dropWhile (p := isBlank) (l := chars)
        rwa [htext, List.append_nil] at hsplit
      refine ⟨[], chars, _, rfl, rfl, layout_nil ?_ rfl rfl ?_⟩
      · exact hblank ▸ blank_takeWhile chars
      · refine standsBehind_of_position _ _ ?_
        rw [Position.after_append, ← hblank]
  | case2 => cases hscan
  | case3 => cases hscan
  | case4 position chars here found following htext kind length hlexeme spelling hlt others
      hothers =>
      rename_i ih
      rintro before rfl
      obtain rfl := Except.ok.inj hscan
      -- The rest is laid out behind this word and the gap in front of it.
      let word : Placed := ⟨chars.takeWhile isBlank, ⟨kind, String.ofList spelling, here⟩⟩
      have hspelling : word.token.text.toList = spelling := String.toList_ofList
      have hplace : Position.start.after (before ++ word.gap) = here := Position.after_append _ _ _
      obtain ⟨words, gap, finish, rfl, hrest, hlayout⟩ :=
        ih hothers (before ++ word.chars) (by
          rw [Placed.chars, ← List.append_assoc, Position.after_append, hplace, hspelling])
      refine ⟨word :: words, gap, finish, rfl, ?_, ?_⟩
      · have hsplit := List.takeWhile_append_dropWhile (p := isBlank) (l := chars)
        rw [List.flatMap_cons, List.append_assoc, ← hrest, Placed.chars, hspelling,
          List.append_assoc, List.take_append_drop, ← htext]
        exact hsplit.symm
      · refine hlayout.cons (blank_takeWhile chars) ?_ ?_ ?_
        · rw [hspelling]
          have hpositive := length_pos_of_lexeme? hlexeme
          simp [spelling, List.take_eq_nil_iff, Nat.pos_iff_ne_zero.1 hpositive]
        · rw [hspelling]
          exact spells_lexeme hlexeme
        · exact standsBehind_of_position _ _ hplace.symm

theorem Layout.kind_ne_endOfInput {before gap : List Char} {words : List Placed} {finish : Token}
    (hlayout : Layout before words gap finish) :
    ∀ word ∈ words, word.token.kind ≠ .endOfInput := by
  intro word hmem hkind
  have hspelled := hlayout.spelled word hmem
  rw [hkind] at hspelled
  exact hlayout.nonempty word hmem (List.isEmpty_iff.1 hspelled)

/-- The end of the input is the last token, and no other one. -/
theorem exists_words_of_source {source : String} {tokens : List Token}
    (htokens : ofSource source = .ok tokens) :
    ∃ words finish, tokens = words ++ [finish] ∧
      (∀ token ∈ words, token.kind ≠ .endOfInput) ∧ finish.kind = .endOfInput := by
  obtain ⟨words, gap, finish, rfl, -, hlayout⟩ := exists_layout htokens [] rfl
  exact ⟨_, finish, rfl, List.forall_mem_map.2 hlayout.kind_ne_endOfInput, hlayout.finishKind⟩

/-- A source that is read is the texts of its tokens with blanks between them, and each token says
where it stands. -/
theorem exists_layout_of_source {source : String} {tokens : List Token}
    (htokens : ofSource source = .ok tokens) :
    ∃ words gap finish, tokens = words.map Placed.token ++ [finish] ∧
      source.toList = words.flatMap Placed.chars ++ gap ∧ Layout [] words gap finish :=
  exists_layout htokens [] rfl

/-- The tokens of a source with a carriage return, which takes no column, a space outside ASCII, and
a truth value and a name that nothing separates. -/
def crowdedTokens : List Token :=
  [⟨.identifier, "x", ⟨1, 1⟩⟩, ⟨.assign, ":=", ⟨1, 3⟩⟩, ⟨.boolean, "true", ⟨2, 2⟩⟩,
    ⟨.identifier, "y", ⟨2, 6⟩⟩, ⟨.endOfInput, "", ⟨2, 7⟩⟩]

theorem exists_layout_of_source_crowded :
    ofSource "x\r :=\n\u00A0truey" = .ok crowdedTokens ∧
      ∃ words gap finish, crowdedTokens = words.map Placed.token ++ [finish] ∧
        "x\r :=\n\u00A0truey".toList = words.flatMap Placed.chars ++ gap ∧
        Layout [] words gap finish := by
  have htokens : ofSource "x\r :=\n\u00A0truey" = .ok crowdedTokens := by
    decide +kernel
  exact ⟨htokens, exists_layout_of_source htokens⟩

end WhileCompiler.Token
