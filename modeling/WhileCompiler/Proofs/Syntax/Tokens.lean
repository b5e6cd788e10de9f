import WhileCompiler.Token.Spelling

/-!
# The tokens of a source

Every token that is read from a source has a text of its kind.  In particular the names in a program
are identifiers.
-/

namespace WhileCompiler.Token

open WhileCompiler.Text

theorem take_of_isPrefixOf {spelling chars : List Char}
    (hbegins : spelling.isPrefixOf chars = true) : chars.take spelling.length = spelling :=
  (List.prefix_iff_eq_take.1 (List.isPrefixOf_iff_prefix.1 hbegins)).symm

theorem spells_punctuation :
    punctuation.all (fun (spelling, kind) => spells kind spelling) = true := by
  decide

/-- A truth value in front of a word is in front of the text that begins with the word. -/
theorem not_startsTruthValue {chars word rest : List Char} (hchars : chars = word ++ rest)
    (hnone : truthValues.find? (fun spelling => spelling.isPrefixOf chars) = none) :
    truthValues.any (fun spelling => spelling.isPrefixOf word) = false := by
  rw [List.any_eq_false]
  intro spelling hmem hword
  have hchars : spelling.isPrefixOf chars = true := by
    rw [List.isPrefixOf_iff_prefix] at hword ⊢
    exact hchars ▸ hword.trans (List.prefix_append word rest)
  exact List.find?_eq_none.1 hnone spelling hmem hchars

theorem spells_wordKind {word : List Char} (hidentifier : isIdentifier word = true)
    (htruth : truthValues.any (fun spelling => spelling.isPrefixOf word) = false) :
    spells (wordKind word) word = true := by
  rw [wordKind]
  cases hlookup : keywords.lookup word with
  | none =>
      have hkeyword : (keywords.map Prod.fst).contains word = false := by
        rw [List.lookup_eq_none_iff] at hlookup
        rw [List.contains_eq_any_beq, List.any_map, List.any_eq_false]
        intro entry hmem hword
        have hne : word ≠ entry.1 := bne_iff_ne.1 (hlookup entry hmem)
        exact hne (beq_iff_eq.1 hword)
      simp only [Option.getD_none, spells, isName, hidentifier, hkeyword, htruth, Bool.not_false,
        Bool.and_self]
  | some kind =>
      have hspelled : keywords.all (fun (spelling, kind) => spells kind spelling) = true := by
        decide
      obtain ⟨before, after, hkeywords, -⟩ := List.lookup_eq_some_iff.1 hlookup
      have hmem : (word, kind) ∈ keywords := hkeywords ▸ by simp
      exact List.all_eq_true.1 hspelled _ hmem

theorem spells_lexeme {chars : List Char} {kind : Kind} {length : Nat}
    (hlexeme : lexeme? chars = some (kind, length)) :
    spells kind (chars.take length) = true := by
  unfold lexeme? at hlexeme
  split at hlexeme
  · next spelling _ hfound =>
      cases hlexeme
      have hbegins : spelling.isPrefixOf chars = true := by
        simpa using List.find?_some hfound
      rw [take_of_isPrefixOf hbegins]
      exact List.all_eq_true.1 spells_punctuation _ (List.mem_of_find?_eq_some hfound)
  · simp only at hlexeme
    split at hlexeme
    · next hdigits =>
        cases hlexeme
        rw [List.prefix_iff_eq_take.1 (List.takeWhile_prefix Char.isDigit) |>.symm]
        simp [spells, isNumeral, hdigits]
    · split at hlexeme
      · next spelling hfound =>
          cases hlexeme
          have hbegins : spelling.isPrefixOf chars = true := by
            simpa using List.find?_some hfound
          rw [take_of_isPrefixOf hbegins]
          exact List.contains_iff_mem.2 (List.mem_of_find?_eq_some hfound)
      · next hnone =>
          split at hlexeme
          · cases hlexeme
          · next first rest _ _ =>
              split at hlexeme
              · next hstarts =>
                  cases hlexeme
                  have hbegins : first :: rest.takeWhile continuesIdentifier <+: first :: rest :=
                    List.prefix_cons_inj first |>.2 (List.takeWhile_prefix continuesIdentifier)
                  rw [← List.prefix_iff_eq_take.1 hbegins]
                  obtain ⟨others, hchars⟩ := hbegins
                  refine spells_wordKind ?_ (not_startsTruthValue hchars.symm hnone)
                  rw [isIdentifier, hstarts, Bool.true_and, List.all_takeWhile]
              · cases hlexeme

/-- Each token of a scan holds the text that its kind stands for. -/
theorem spells_scan {position : Position} {chars : List Char} {tokens : List Token}
    (hscan : scan position chars = .ok tokens) :
    ∀ token ∈ tokens, spells token.kind token.text.toList = true := by
  fun_induction scan position chars generalizing tokens with
  | case1 position chars htext =>
      obtain rfl := Except.ok.inj hscan
      intro token hmem
      obtain rfl := List.mem_singleton.1 hmem
      rfl
  | case2 => cases hscan
  | case3 => cases hscan
  | case4 position chars here found following htext kind length hlexeme spelling hlt others
      hothers =>
      rename_i ih
      obtain rfl := Except.ok.inj hscan
      intro token hmem
      rcases List.mem_cons.1 hmem with rfl | hmem
      · rw [String.toList_ofList]
        exact spells_lexeme hlexeme
      · exact ih hothers token hmem

/-- A name in a source is an identifier. -/
theorem isName_of_source {source : String} {tokens : List Token}
    (htokens : ofSource source = .ok tokens) {token : Token} (hmem : token ∈ tokens)
    (hkind : token.kind = .identifier) : isName token.text.toList = true := by
  have hspells := spells_scan htokens token hmem
  rwa [hkind] at hspells

end WhileCompiler.Token
