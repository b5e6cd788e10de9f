import Mathlib.Data.List.Induction
import WhileCompiler.Position

/-!
# Counting lines and columns

A position is kept up to date one character at a time.  Counted from the text that stands before it,
the line is the number of line feeds and the column the number of characters that show on the last
line, each counted from one.
-/

namespace WhileCompiler

namespace Text

/-- What stands behind the last line feed of a text. -/
def lastLine (chars : List Char) : List Char :=
  (chars.reverse.takeWhile (· ≠ '\n')).reverse

theorem lastLine_concat (chars : List Char) (c : Char) :
    lastLine (chars ++ [c]) = if c = '\n' then [] else lastLine chars ++ [c] := by
  rw [lastLine, List.reverse_append, List.reverse_singleton, List.singleton_append]
  by_cases hc : c = '\n'
  · simp [hc]
  · simp [hc, lastLine]

end Text

namespace Position

open Text

theorem after_concat (position : Position) (chars : List Char) (c : Char) :
    position.after (chars ++ [c]) = (position.after chars).next c := by
  rw [after_append, after_cons, after_nil]

/-- The position behind a text, counted from the text as a whole. -/
theorem after_start_eq (before : List Char) :
    start.after before =
      ⟨1 + before.count '\n', 1 + (lastLine before).countP (· ≠ '\r')⟩ := by
  induction before using List.reverseRecOn with
  | nil => rfl
  | append_singleton before c ih =>
      rw [after_concat, ih, lastLine_concat, next]
      by_cases hfeed : c = '\n'
      · subst hfeed
        simp [Nat.add_assoc]
      · rw [if_neg hfeed, if_neg hfeed, List.count_append, List.countP_append]
        by_cases hreturn : c = '\r'
        · simp [hreturn]
        · simp [hfeed, hreturn, Nat.add_assoc]

end Position

end WhileCompiler
