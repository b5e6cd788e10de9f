import WhileCompiler.Machine.Program
import WhileCompiler.Proofs.Text.Numerals
import WhileCompiler.Proofs.Text.Words

/-!
# Reading back what was written

The machine reads its programs from text.  Each line of a listing comes back as what was meant by
it: labels as labels, and instructions as instructions whose operands are the ones that were
written, unless a number in them does not fit in a word.
-/

namespace WhileCompiler.Machine

open Asm Text

/-! ## Blanks and separators -/

theorem trimStart_eq_self {chars : List Char} (hhead : ∀ c ∈ chars.head?, isBlank c = false) :
    trimStart chars = chars := by
  cases chars with
  | nil => rfl
  | cons c rest => simp [trimStart, hhead c rfl]

theorem trim_eq_self {chars : List Char} (hhead : ∀ c ∈ chars.head?, isBlank c = false)
    (hlast : ∀ c ∈ chars.getLast?, isBlank c = false) : trim chars = chars := by
  rw [trim, trimStart_eq_self hhead, trimEnd, trimStart_eq_self, List.reverse_reverse]
  rwa [List.head?_reverse]

theorem trim_blank_cons {c : Char} (hblank : isBlank c = true) (rest : List Char) :
    trim (c :: rest) = trim rest := by
  simp [trim, trimStart, hblank]

/-- A character that separates nothing in a line. -/
def IsPlain (c : Char) : Prop :=
  isBlank c = false ∧ c ≠ ',' ∧ c ≠ ':'

instance (c : Char) : Decidable (IsPlain c) :=
  inferInstanceAs (Decidable (_ ∧ _))

/-- Text that stays in one piece when a line is read. -/
structure IsWord (chars : List Char) : Prop where
  ne_nil : chars ≠ []
  plain : ∀ c ∈ chars, IsPlain c

instance (chars : List Char) : Decidable (IsWord chars) :=
  decidable_of_iff (chars ≠ [] ∧ chars.all fun c => decide (IsPlain c)) <| by
    simp only [List.all_eq_true, decide_eq_true_eq]
    exact ⟨fun h => ⟨h.1, h.2⟩, fun h => ⟨h.ne_nil, h.plain⟩⟩

/-- A word that an instruction may begin with. -/
def IsMnemonic (text : String) : Prop :=
  IsWord text.toList ∧ text.toList.head? ≠ some '.'

instance (text : String) : Decidable (IsMnemonic text) :=
  inferInstanceAs (Decidable (_ ∧ _))

theorem IsWord.trim_eq {chars : List Char} (hword : IsWord chars) : trim chars = chars :=
  trim_eq_self (fun c hc => (hword.plain c (List.mem_of_mem_head? hc)).1)
    fun c hc => (hword.plain c (List.mem_of_mem_getLast? hc)).1

theorem IsWord.ne_space {chars : List Char} (hword : IsWord chars) {c : Char} (hc : c ∈ chars) :
    c ≠ ' ' := by
  rintro rfl
  have hblank := (hword.plain ' ' hc).1
  rw [isBlank_space] at hblank
  cases hblank

theorem splitCommas_cons {c : Char} (hc : c ≠ ',') {rest piece : List Char}
    {others : List (List Char)} (hrest : splitCommas rest = piece :: others) :
    splitCommas (c :: rest) = (c :: piece) :: others := by
  rw [splitCommas.eq_def]
  split
  · contradiction
  · next heq =>
      cases heq
      exact absurd rfl hc
  · next heq =>
      cases heq
      rw [hrest]

theorem splitCommas_word {word : List Char} (hword : ∀ c ∈ word, c ≠ ',') :
    splitCommas word = [word] := by
  induction word with
  | nil => rfl
  | cons c rest ih =>
      exact splitCommas_cons (hword c List.mem_cons_self)
        (ih fun d hd => hword d (List.mem_cons_of_mem _ hd))

theorem splitCommas_append {word : List Char} (hword : ∀ c ∈ word, c ≠ ',') (rest : List Char) :
    splitCommas (word ++ ',' :: ' ' :: rest) = word :: splitCommas rest := by
  induction word with
  | nil => rfl
  | cons c front ih =>
      exact splitCommas_cons (hword c List.mem_cons_self)
        (ih fun d hd => hword d (List.mem_cons_of_mem _ hd))

theorem splitCommas_commaSeparated {first : String} {rest : List String}
    (hfirst : ∀ c ∈ first.toList, c ≠ ',') (hrest : ∀ text ∈ rest, ∀ c ∈ text.toList, c ≠ ',') :
    splitCommas (commaSeparated (first :: rest)).toList = (first :: rest).map String.toList := by
  induction rest generalizing first with
  | nil => rw [commaSeparated, String.intercalate_singleton, splitCommas_word hfirst]; rfl
  | cons second rest ih =>
      have hsplit := ih (hrest second List.mem_cons_self) fun text htext =>
        hrest text (List.mem_cons_of_mem _ htext)
      rw [commaSeparated, String.intercalate_cons_cons, String.toList_append,
        String.toList_append, List.append_assoc]
      have hcomma := splitCommas_append hfirst (commaSeparated (second :: rest)).toList
      rw [hsplit] at hcomma
      exact hcomma

/-! ## Lines -/

theorem toList_written (mnemonic : String) (operands : List String) :
    (written mnemonic operands).toList =
      mnemonic.toList ++ ' ' :: (commaSeparated operands).toList := by
  simp [written, String.toList_append, toString]

theorem takeWhile_written {mnemonic : String} (hmnemonic : IsWord mnemonic.toList)
    (operands : List String) :
    (written mnemonic operands).toList.takeWhile (· ≠ ' ') = mnemonic.toList := by
  have hspace : ∀ c ∈ mnemonic.toList, decide (c ≠ ' ') = true := fun c hc =>
    decide_eq_true (hmnemonic.ne_space hc)
  rw [toList_written, List.takeWhile_append_of_pos hspace]
  simp

theorem dropWhile_written {mnemonic : String} (hmnemonic : IsWord mnemonic.toList)
    (operands : List String) :
    (written mnemonic operands).toList.dropWhile (· ≠ ' ') =
      ' ' :: (commaSeparated operands).toList := by
  have hspace : ∀ c ∈ mnemonic.toList, decide (c ≠ ' ') = true := fun c hc =>
    decide_eq_true (hmnemonic.ne_space hc)
  rw [toList_written, List.dropWhile_append_of_pos hspace]
  simp

theorem readInstruction_written {mnemonic : String} {operands : List String}
    (hne : operands ≠ []) (hmnemonic : IsWord mnemonic.toList)
    (hwords : ∀ text ∈ operands, IsWord text.toList) :
    readInstruction (written mnemonic operands).toList =
      .cell (readCell mnemonic (operands.map String.toList)) := by
  have hcomma : ∀ text ∈ operands, ∀ c ∈ text.toList, c ≠ ',' := fun text htext c hc =>
    ((hwords text htext).plain c hc).2.1
  have hsplit : splitCommas (commaSeparated operands).toList = operands.map String.toList := by
    cases operands with
    | nil => exact absurd rfl hne
    | cons first rest =>
        exact splitCommas_commaSeparated (hcomma first List.mem_cons_self) fun text htext =>
          hcomma text (List.mem_cons_of_mem _ htext)
  have htrimmed : (operands.map String.toList).map trim = operands.map String.toList := by
    rw [List.map_map]
    exact List.map_congr_left fun text htext => (hwords text htext).trim_eq
  rw [readInstruction, takeWhile_written hmnemonic, dropWhile_written hmnemonic]
  simp only [List.tail_cons, String.ofList_toList, hsplit, htrimmed]
  congr 2
  rw [List.filter_eq_self]
  intro chars hchars
  obtain ⟨text, htext, rfl⟩ := List.mem_map.1 hchars
  exact decide_eq_true (hwords text htext).ne_nil

theorem getLast?_commaSeparated {operands : List String} (hne : operands ≠ [])
    (hwords : ∀ text ∈ operands, text.toList ≠ []) :
    ∃ text ∈ operands, (commaSeparated operands).toList.getLast? = text.toList.getLast? := by
  induction operands with
  | nil => exact absurd rfl hne
  | cons first rest ih =>
      cases rest with
      | nil =>
          refine ⟨first, List.mem_cons_self, ?_⟩
          rw [commaSeparated, String.intercalate_singleton]
      | cons second rest =>
          obtain ⟨text, htext, hlast⟩ := ih (List.cons_ne_nil _ _) fun text htext =>
            hwords text (List.mem_cons_of_mem _ htext)
          refine ⟨text, List.mem_cons_of_mem _ htext, ?_⟩
          have hsome : text.toList.getLast?.isSome :=
            List.getLast?_isSome.2 (hwords text (List.mem_cons_of_mem _ htext))
          rw [commaSeparated, String.intercalate_cons_cons, String.toList_append,
            List.getLast?_append, ← commaSeparated, hlast, Option.or_of_isSome hsome]

/-- Reading a line takes its indentation away again. -/
theorem trim_indented {line : String} {first last : Char}
    (hfirst : line.toList.head? = some first) (hlast : line.toList.getLast? = some last)
    (hblank : isBlank first = false) (hblank' : isBlank last = false) :
    trim (indented line).toList = line.toList := by
  have htrim : trim line.toList = line.toList :=
    trim_eq_self (by simpa [hfirst] using hblank) (by simpa [hlast] using hblank')
  have hspaces : "    ".toList = [' ', ' ', ' ', ' '] := by decide
  rw [indented]
  split
  · exact htrim
  · rw [String.toList_append, hspaces]
    simp only [List.cons_append, List.nil_append, trim_blank_cons isBlank_space]
    exact htrim

theorem readLine?_indented {line : String} {first last : Char}
    (hfirst : line.toList.head? = some first) (hlast : line.toList.getLast? = some last)
    (hblank : isBlank first = false) (hdirective : first ≠ '.') (hplain : IsPlain last) :
    readLine? (indented line) = some (readInstruction line.toList) := by
  have hcolon : last ≠ ':' := hplain.2.2
  have htrim := trim_indented hfirst hlast hblank hplain.1
  have hne : line.toList ≠ [] := by
    rintro heq
    rw [heq] at hfirst
    cases hfirst
  simp [readLine?, htrim, hne, hfirst, hlast, hdirective, hcolon]

theorem toList_label (name : String) :
    (Line.text (.label name)).toList = name.toList ++ [':'] := by
  simp [Line.text, String.toList_append, toString]

theorem trim_label {name : String} (hname : IsWord name.toList) :
    trim (indented (Line.text (.label name))).toList = name.toList ++ [':'] := by
  obtain ⟨first, rest, hlist⟩ := List.exists_cons_of_ne_nil hname.ne_nil
  have hfirst : (Line.text (.label name)).toList.head? = some first := by
    simp [toList_label, hlist]
  have hlast : (Line.text (.label name)).toList.getLast? = some ':' := by
    simp [toList_label]
  calc
    trim (indented (Line.text (.label name))).toList = (Line.text (.label name)).toList :=
      trim_indented hfirst hlast (hname.plain first (by simp [hlist])).1 (by decide)
    _ = name.toList ++ [':'] := toList_label name

theorem readLine?_label {name : String} (hname : IsWord name.toList)
    (hdirective : name.toList.head? ≠ some '.') :
    readLine? (indented (Line.text (.label name))) = some (.label name) := by
  obtain ⟨first, rest, hlist⟩ := List.exists_cons_of_ne_nil hname.ne_nil
  have hfirst : first ≠ '.' := by simpa [hlist] using hdirective
  have hback : String.ofList (first :: rest) = name := by rw [← hlist, String.ofList_toList]
  have hdrop : (first :: rest ++ [':']).dropLast = first :: rest := List.dropLast_concat
  have hlast : (first :: rest ++ [':']).getLast? = some ':' := List.getLast?_concat
  simp only [readLine?, trim_label hname, hlist, hdrop, hback, hlast]
  simp [hfirst]

/-- What is written begins with the mnemonic and ends with an operand. -/
theorem ends_written {mnemonic : String} {operands : List String} (hne : operands ≠ [])
    (hmnemonic : IsWord mnemonic.toList) (hwords : ∀ text ∈ operands, IsWord text.toList) :
    ∃ first last, (written mnemonic operands).toList.head? = some first ∧
      (written mnemonic operands).toList.getLast? = some last ∧
        mnemonic.toList.head? = some first ∧ IsPlain first ∧ IsPlain last := by
  obtain ⟨first, rest, hlist⟩ := List.exists_cons_of_ne_nil hmnemonic.ne_nil
  obtain ⟨text, htext, hlast⟩ := getLast?_commaSeparated hne fun text htext =>
    (hwords text htext).ne_nil
  obtain ⟨last, hlast'⟩ := Option.isSome_iff_exists.1
    (List.getLast?_isSome.2 (hwords text htext).ne_nil)
  refine ⟨first, last, ?_, ?_, ?_, hmnemonic.plain first (by simp [hlist]), ?_⟩
  · simp [toList_written, hlist]
  · simp [toList_written, hlast, hlast', List.getLast?_append, List.getLast?_cons]
  · simp [hlist]
  · exact (hwords text htext).plain last (List.mem_of_mem_getLast? hlast')

theorem readLine?_written {mnemonic : String} {operands : List String} (hne : operands ≠ [])
    (hmnemonic : IsMnemonic mnemonic) (hwords : ∀ text ∈ operands, IsWord text.toList) :
    readLine? (indented (written mnemonic operands)) =
      some (.cell (readCell mnemonic (operands.map String.toList))) := by
  obtain ⟨first, last, hfirst, hlast, hhead, hplain, hplain'⟩ :=
    ends_written hne hmnemonic.1 hwords
  have hdirective : first ≠ '.' := by simpa [hhead] using hmnemonic.2
  rw [readLine?_indented hfirst hlast hplain.1 hdirective hplain',
    readInstruction_written hne hmnemonic.1 hwords]

end WhileCompiler.Machine
