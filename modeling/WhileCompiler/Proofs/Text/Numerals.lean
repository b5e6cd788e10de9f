import WhileCompiler.Text.Decimal
import WhileCompiler.Text.Identifier
import Std.Data.String.ToNat

/-!
# Written numbers

Numbers are written in decimal into names, constants and displacements, and the machine reads the
last two of these again.  A number of 32 bits is read back as it was written, a larger one is
refused, and the number at the end of a name can be told from what stands before it.
-/

namespace WhileCompiler.Text

theorem toList_toString_nat (number : Nat) :
    (toString number).toList = Nat.toDigits 10 number := by
  rw [Nat.toString_eq_repr, Nat.toList_repr]

theorem isDigit_of_mem_toString {number : Nat} {c : Char}
    (hmem : c ∈ (toString number).toList) : c.isDigit := by
  rw [toList_toString_nat] at hmem
  exact Nat.isDigit_of_mem_toDigits (by decide) (by decide) hmem

theorem toString_nat_ne_nil (number : Nat) : (toString number).toList ≠ [] := by
  rw [toList_toString_nat]
  exact Nat.toDigits_ne_nil

/-! ## Reading digits -/

theorem le_ofDigitChars (chars : List Char) (value : Nat) :
    value ≤ Nat.ofDigitChars 10 chars value := by
  rw [Nat.ofDigitChars_eq_ofDigitChars_zero]
  have hpower : 1 * value ≤ 10 ^ chars.length * value :=
    Nat.mul_le_mul_right value (Nat.one_le_pow _ _ (by decide))
  omega

theorem readDigits_of_le {limit value : Nat} {overflow : NumberFault} {chars : List Char}
    (hdigits : ∀ c ∈ chars, c.isDigit)
    (hle : Nat.ofDigitChars 10 chars value ≤ limit) :
    readDigits limit overflow value chars = .ok (Nat.ofDigitChars 10 chars value) := by
  induction chars generalizing value with
  | nil => simp [readDigits]
  | cons c rest ih =>
      rw [Nat.ofDigitChars_cons] at hle ⊢
      have hprefix := le_ofDigitChars rest (10 * value + (c.toNat - '0'.toNat))
      rw [readDigits, if_pos (hdigits c List.mem_cons_self)]
      rw [if_pos (Nat.le_trans hprefix hle)]
      exact ih (fun d hd => hdigits d (List.mem_cons_of_mem c hd)) hle

theorem readDigits_of_lt {limit value : Nat} {overflow : NumberFault} {chars : List Char}
    (hdigits : ∀ c ∈ chars, c.isDigit) (hvalue : value ≤ limit)
    (hlt : limit < Nat.ofDigitChars 10 chars value) :
    readDigits limit overflow value chars = .error overflow := by
  induction chars generalizing value with
  | nil =>
      rw [Nat.ofDigitChars_nil] at hlt
      omega
  | cons c rest ih =>
      rw [Nat.ofDigitChars_cons] at hlt
      rw [readDigits, if_pos (hdigits c List.mem_cons_self)]
      by_cases hextended : 10 * value + (c.toNat - '0'.toNat) ≤ limit
      · rw [if_pos hextended]
        exact ih (fun d hd => hdigits d (List.mem_cons_of_mem c hd)) hextended hlt
      · rw [if_neg hextended]

theorem readMagnitude_eq_readDigits (limit : Nat) (overflow : NumberFault) {chars : List Char}
    (hne : chars ≠ []) :
    readMagnitude limit overflow chars = readDigits limit overflow 0 chars := by
  cases chars with
  | nil => exact absurd rfl hne
  | cons c rest => rfl

theorem readMagnitude_toString_of_le {limit number : Nat} (overflow : NumberFault)
    (hle : number ≤ limit) :
    readMagnitude limit overflow (toString number).toList = .ok number := by
  have hvalue : Nat.ofDigitChars 10 (toString number).toList 0 = number := by
    rw [toList_toString_nat, Nat.ofDigitChars_ten_toDigits]
  rw [readMagnitude_eq_readDigits limit overflow (toString_nat_ne_nil number)]
  rw [readDigits_of_le (fun c => isDigit_of_mem_toString) (by rwa [hvalue]), hvalue]

theorem readMagnitude_toString_of_lt {limit number : Nat} (overflow : NumberFault)
    (hlt : limit < number) :
    readMagnitude limit overflow (toString number).toList = .error overflow := by
  have hvalue : Nat.ofDigitChars 10 (toString number).toList 0 = number := by
    rw [toList_toString_nat, Nat.ofDigitChars_ten_toDigits]
  rw [readMagnitude_eq_readDigits limit overflow (toString_nat_ne_nil number)]
  exact readDigits_of_lt (fun c => isDigit_of_mem_toString) (Nat.zero_le limit) (by rwa [hvalue])

/-- Digits are no sign, so they are read as they stand. -/
theorem readInt32_of_digits {chars : List Char} (hne : chars ≠ [])
    (hdigits : ∀ c ∈ chars, c.isDigit) :
    readInt32 chars = (readMagnitude 0x7FFFFFFF .tooLarge chars).map fun n => Int32.ofInt n := by
  cases chars with
  | nil => exact absurd rfl hne
  | cons c rest =>
      have hdigit := hdigits c List.mem_cons_self
      unfold readInt32
      split
      · next heq => cases heq
      · next heq => cases heq; exact absurd hdigit (by decide)
      · next heq => cases heq; exact absurd hdigit (by decide)
      · rfl

/-! ## Reading back what was written -/

theorem readInt32_toString_nat {number : Nat} (hle : number ≤ 0x7FFFFFFF) :
    readInt32 (toString number).toList = .ok (Int32.ofInt number) := by
  rw [readInt32_of_digits (toString_nat_ne_nil number) (fun c => isDigit_of_mem_toString)]
  rw [readMagnitude_toString_of_le .tooLarge hle]
  rfl

/-- A number that needs more than 32 bits is refused. -/
theorem readInt32_toString_large {number : Nat} (hlt : 0x7FFFFFFF < number) :
    readInt32 (toString number).toList = .error .tooLarge := by
  rw [readInt32_of_digits (toString_nat_ne_nil number) (fun c => isDigit_of_mem_toString)]
  rw [readMagnitude_toString_of_lt .tooLarge hlt]
  rfl

theorem toString_int_of_nonneg (number : Nat) : toString (number : Int) = toString number := rfl

theorem toList_toString_neg {number : Nat} (hpos : 0 < number) :
    (toString (-(number : Int))).toList = '-' :: (toString number).toList := by
  have hneg : ¬ (0 : Int) ≤ -(number : Int) := by omega
  rw [Int.toString_eq_repr, Int.repr_eq_if, if_neg hneg, String.toList_append, Int.neg_neg,
    Int.toNat_natCast]
  rfl

/-- Every number of 32 bits is read back as it was written. -/
theorem readInt32_toString_int {number : Int} (hlower : -0x80000000 ≤ number)
    (hupper : number ≤ 0x7FFFFFFF) :
    readInt32 (toString number).toList = .ok (Int32.ofInt number) := by
  by_cases hneg : number < 0
  · obtain ⟨magnitude, rfl⟩ : ∃ magnitude : Nat, number = -(magnitude : Int) :=
      ⟨number.natAbs, by omega⟩
    rw [toList_toString_neg (by omega), readInt32]
    rw [readMagnitude_toString_of_le .tooSmall (by omega)]
    rfl
  · obtain ⟨magnitude, rfl⟩ : ∃ magnitude : Nat, number = (magnitude : Int) :=
      ⟨number.toNat, by omega⟩
    rw [toString_int_of_nonneg]
    exact readInt32_toString_nat (by omega)

theorem readInt32_toString_toInt (value : Int32) :
    readInt32 (toString value.toInt).toList = .ok value := by
  have hlower := value.le_toInt
  have hupper := value.toInt_lt
  rw [readInt32_toString_int (by omega) (by omega), Int32.ofInt_toInt]

/-! ## Numbers at the end of a name -/

/-- What stands before the digits at the end of a text. -/
def beforeNumber (chars : List Char) : List Char :=
  (chars.reverse.dropWhile Char.isDigit).reverse

private theorem dropWhile_of_head {chars : List Char}
    (hhead : ∀ c ∈ chars.head?, c.isDigit = false) :
    chars.dropWhile Char.isDigit = chars := by
  cases chars with
  | nil => rfl
  | cons c rest =>
      have hc : ¬ c.isDigit = true := by simp [hhead c rfl]
      rw [List.dropWhile_cons_of_neg hc]

theorem beforeNumber_append {stem digits : List Char}
    (hstem : ∀ c ∈ stem.getLast?, c.isDigit = false) (hdigits : ∀ c ∈ digits, c.isDigit) :
    beforeNumber (stem ++ digits) = stem := by
  have hreverse : ∀ c ∈ digits.reverse, c.isDigit := fun c hc =>
    hdigits c (List.mem_reverse.1 hc)
  rw [beforeNumber, List.reverse_append, List.dropWhile_append_of_pos hreverse]
  rw [dropWhile_of_head (by simpa using hstem), List.reverse_reverse]

/-- A stem that does not end in a digit and the number behind it can both be recovered. -/
theorem numbered_inj {left right : String} {first second : Nat}
    (hleft : ∀ c ∈ left.toList.getLast?, c.isDigit = false)
    (hright : ∀ c ∈ right.toList.getLast?, c.isDigit = false)
    (heq : left ++ toString first = right ++ toString second) :
    left = right ∧ first = second := by
  have hchars := congrArg String.toList heq
  rw [String.toList_append, String.toList_append] at hchars
  have hstems : left.toList = right.toList := by
    calc
      left.toList = beforeNumber (left.toList ++ (toString first).toList) :=
        (beforeNumber_append hleft fun c => isDigit_of_mem_toString).symm
      _ = beforeNumber (right.toList ++ (toString second).toList) := by rw [hchars]
      _ = right.toList := beforeNumber_append hright fun c => isDigit_of_mem_toString
  rw [hstems] at hchars
  have hnumbers : toString first = toString second :=
    String.toList_inj.1 (List.append_cancel_left hchars)
  exact ⟨String.toList_inj.1 hstems, Nat.repr_injective hnumbers⟩

end WhileCompiler.Text
