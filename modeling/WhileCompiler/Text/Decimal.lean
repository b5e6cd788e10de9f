/-!
# Decimal numbers of 32 bits

Signed decimal text is read one digit at a time, and reading stops at the first fault: a number that
leaves the range is reported as such even when a later character is no digit.
-/

namespace WhileCompiler.Text

inductive NumberFault
  | empty
  | invalidDigit
  | tooLarge
  | tooSmall
  deriving DecidableEq, Repr

def NumberFault.message : NumberFault → String
  | .empty => "cannot parse integer from empty string"
  | .invalidDigit => "invalid digit found in string"
  | .tooLarge => "number too large to fit in target type"
  | .tooSmall => "number too small to fit in target type"

/-- Appends the digits to `value`, failing with `overflow` as soon as it exceeds `limit`. -/
def readDigits (limit : Nat) (overflow : NumberFault) (value : Nat) :
    List Char → Except NumberFault Nat
  | [] => .ok value
  | c :: rest =>
    if c.isDigit then
      let extended := 10 * value + (c.toNat - '0'.toNat)
      if extended ≤ limit then readDigits limit overflow extended rest else .error overflow
    else .error .invalidDigit

/-- The magnitude after a sign or at the start, which needs at least one digit. -/
def readMagnitude (limit : Nat) (overflow : NumberFault) :
    List Char → Except NumberFault Nat
  | [] => .error .invalidDigit
  | digits => readDigits limit overflow 0 digits

/-- Reads an optional sign and decimal digits as a number of 32 bits. -/
def readInt32 : List Char → Except NumberFault Int32
  | [] => .error .empty
  | '-' :: digits => (readMagnitude 0x80000000 .tooSmall digits).map fun n => Int32.ofInt (-n)
  | '+' :: digits => (readMagnitude 0x7FFFFFFF .tooLarge digits).map fun n => Int32.ofInt n
  | digits => (readMagnitude 0x7FFFFFFF .tooLarge digits).map fun n => Int32.ofInt n

theorem readDigits_le {limit value result : Nat} {overflow : NumberFault} {chars : List Char}
    (hvalue : value ≤ limit) (hread : readDigits limit overflow value chars = .ok result) :
    result ≤ limit := by
  induction chars generalizing value with
  | nil =>
      simp only [readDigits, Except.ok.injEq] at hread
      omega
  | cons c rest ih =>
      simp only [readDigits] at hread
      split at hread
      · split at hread
        · exact ih ‹_› hread
        · cases hread
      · cases hread

end WhileCompiler.Text
