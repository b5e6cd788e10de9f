import WhileCompiler.Diagnostic
import WhileCompiler.Proofs.Text.Positions
import WhileCompiler.Text.Blank

/-!
# Lines of a text

The line on which a character stands is found by counting the line feeds in front of it.  It holds
what stands between the last line feed in front of the character and the next one behind it.
-/

namespace WhileCompiler

namespace Text

/-- What stands in front of the first line feed of a text. -/
def firstLine (chars : List Char) : List Char :=
  chars.takeWhile (· ≠ '\n')

theorem feed_not_mem_firstLine (chars : List Char) : '\n' ∉ firstLine chars := by
  intro hmem
  simpa using List.all_eq_true.1 List.all_takeWhile _ hmem

theorem firstLine_append {line rest : List Char} (hline : '\n' ∉ line) :
    firstLine (line ++ rest) = line ++ firstLine rest := by
  refine List.takeWhile_append_of_pos fun c hc => ?_
  have hne : c ≠ '\n' := fun heq => hline (heq ▸ hc)
  simpa using hne

/-- What stands behind the first line of a text is empty or begins with a line feed. -/
theorem exists_behind_firstLine (chars : List Char) :
    ∃ behind, chars = firstLine chars ++ behind ∧ ∀ c ∈ behind.head?, c = '\n' := by
  refine ⟨chars.dropWhile (· ≠ '\n'), List.takeWhile_append_dropWhile.symm, fun c hc => ?_⟩
  have hhead := List.head?_dropWhile_not (· ≠ '\n') chars
  rw [hc] at hhead
  simpa using hhead

theorem feed_not_mem_lastLine (chars : List Char) : '\n' ∉ lastLine chars := by
  rw [lastLine, List.mem_reverse]
  exact feed_not_mem_firstLine chars.reverse

/-- A text is a line, or its last line stands behind a line feed. -/
theorem lastLine_cases (chars : List Char) :
    lastLine chars = chars ∨ ∃ front, chars = front ++ '\n' :: lastLine chars := by
  obtain ⟨behind, hsplit, hhead⟩ := exists_behind_firstLine chars.reverse
  have hchars : chars = behind.reverse ++ lastLine chars := by
    rw [← List.reverse_inj, List.reverse_append, lastLine, List.reverse_reverse,
      List.reverse_reverse]
    exact hsplit
  cases behind with
  | nil => exact .inl hchars.symm
  | cons c behind =>
      obtain rfl := hhead c rfl
      refine .inr ⟨behind.reverse, ?_⟩
      rwa [List.reverse_cons, List.append_assoc] at hchars

theorem ne_of_isBlank {c : Char} (hc : isBlank c = false) : c ≠ '\n' ∧ c ≠ '\r' := by
  constructor
  · rintro rfl
    exact absurd hc (by decide)
  · rintro rfl
    exact absurd hc (by decide)

end Text

namespace Position

open Text

/-- A text without blanks stays on its line, and each of its characters takes a column. -/
theorem after_start_of_isBlank {chars : List Char} (hblank : ∀ c ∈ chars, isBlank c = false) :
    start.after chars = ⟨1, 1 + chars.length⟩ := by
  have hfeed : '\n' ∉ chars := fun hmem => (ne_of_isBlank (hblank _ hmem)).1 rfl
  have hline : lastLine chars = chars := by
    refine (lastLine_cases chars).resolve_right ?_
    rintro ⟨front, hfront⟩
    rw [hfront] at hfeed
    exact hfeed (by simp)
  have hcolumns : chars.countP (· ≠ '\r') = chars.length := by
    rw [List.countP_eq_length]
    exact fun c hc => decide_eq_true (ne_of_isBlank (hblank c hc)).2
  rw [after_start_eq, hline, hcolumns, List.count_eq_zero.2 hfeed]

end Position

namespace Diagnostic

open Text

theorem lines_feed (rest : List Char) : lines ('\n' :: rest) = [] :: lines rest := rfl

theorem lines_cons {c : Char} (hc : c ≠ '\n') (rest : List Char) :
    lines (c :: rest) = (c :: firstLine rest) :: (lines rest).tail := by
  induction rest generalizing c with
  | nil => simp [lines, hc, firstLine]
  | cons d rest ih =>
      rw [lines, if_neg hc]
      by_cases hd : d = '\n'
      · subst hd
        rfl
      · rw [ih hd]
        simp [firstLine, hd]

theorem lines_zero {chars : List Char} (hchars : chars ≠ []) :
    (lines chars)[0]? = some (firstLine chars) := by
  obtain ⟨c, rest, rfl⟩ := List.exists_cons_of_ne_nil hchars
  by_cases hc : c = '\n'
  · subst hc
    rfl
  · rw [lines_cons hc]
    simp [firstLine, hc]

/-- The lines behind a line feed are those of the text behind it. -/
theorem drop_lines (front rest : List Char) :
    (lines (front ++ '\n' :: rest)).drop (front.count '\n' + 1) = lines rest := by
  induction front with
  | nil => rfl
  | cons c front ih =>
      rw [List.cons_append]
      by_cases hc : c = '\n'
      · subst hc
        rw [lines_feed, List.count_cons_self, List.drop_succ_cons, ih]
      · rw [lines_cons hc, List.count_cons_of_ne hc, List.drop_succ_cons, List.drop_tail, ih]

/-- The line on which the first character of a text stands. -/
theorem lines_count (before : List Char) {chars : List Char} (hchars : chars ≠ []) :
    (lines (before ++ chars))[before.count '\n']? = some (lastLine before ++ firstLine chars) := by
  have hline : (lines (lastLine before ++ chars))[0]? =
      some (lastLine before ++ firstLine chars) := by
    rw [lines_zero (List.append_ne_nil_of_right_ne_nil _ hchars),
      firstLine_append (feed_not_mem_lastLine before)]
  rcases lastLine_cases before with hwhole | ⟨front, hfront⟩
  · have hnone := feed_not_mem_lastLine before
    rw [hwhole] at hline hnone ⊢
    rwa [List.count_eq_zero.2 hnone]
  · have hcount : before.count '\n' = front.count '\n' + 1 := by
      rw [hfront, List.count_append, List.count_cons_self,
        List.count_eq_zero.2 (feed_not_mem_lastLine before)]
    have hdrop := drop_lines front (lastLine before ++ chars)
    rw [← hcount, ← List.cons_append, ← List.append_assoc, ← hfront] at hdrop
    rw [← hline, ← hdrop, List.getElem?_drop, Nat.add_zero]

/-! ## The line that is shown -/

/-- Carriage returns are dropped only at the end of a line. -/
theorem shownLine_append {left : List Char} (hne : left ≠ [])
    (hleft : ∀ c ∈ left.getLast?, c ≠ '\r') (right : List Char) :
    shownLine (left ++ right) = left ++ shownLine right := by
  have hkept : left.reverse.dropWhile (· = '\r') = left.reverse := by
    obtain ⟨front, last, rfl⟩ := List.eq_nil_or_concat left |>.resolve_left hne
    have hlast : last ≠ '\r' := hleft last (by simp)
    simp [hlast]
  rw [shownLine, List.reverse_append, List.dropWhile_append, hkept]
  split
  · next hnone =>
      rw [shownLine, List.isEmpty_iff.1 hnone, List.reverse_nil, List.append_nil,
        List.reverse_reverse]
  · rw [List.reverse_append, List.reverse_reverse, shownLine]

/-- A line is what is shown of it, and then carriage returns. -/
theorem exists_returns (line : List Char) :
    ∃ returns, line = shownLine line ++ returns ∧ (∀ c ∈ returns, c = '\r') ∧
      ∀ c ∈ (shownLine line).getLast?, c ≠ '\r' := by
  refine ⟨(line.reverse.takeWhile (· = '\r')).reverse, ?_, fun c hc => ?_, fun c hc => ?_⟩
  · rw [shownLine, ← List.reverse_append, List.takeWhile_append_dropWhile, List.reverse_reverse]
  · simpa using List.all_eq_true.1 List.all_takeWhile c (List.mem_reverse.1 hc)
  · have hhead := List.head?_dropWhile_not (· = '\r') line.reverse
    rw [shownLine, List.getLast?_reverse] at hc
    rw [hc] at hhead
    simpa using hhead

end Diagnostic

end WhileCompiler
