import WhileCompiler.Text.Blank
import WhileCompiler.Text.Identifier

/-!
# The characters of names and numbers

Letters, digits and underscores are ASCII characters, and none of them is a blank.
-/

namespace WhileCompiler.Text

variable {c : Char}

theorem continuesIdentifier_iff :
    continuesIdentifier c = true ↔ startsIdentifier c = true ∨ c.isDigit = true := by
  simp only [continuesIdentifier, startsIdentifier, Char.isAlphanum, Bool.or_eq_true]
  exact or_right_comm

theorem toNat_of_isDigit (hc : c.isDigit = true) : 48 ≤ c.toNat ∧ c.toNat ≤ 57 :=
  (Bool.and_eq_true_iff.1 hc).imp of_decide_eq_true of_decide_eq_true

/-- The codes from the first capital to the last small letter. -/
theorem toNat_of_startsIdentifier (hc : startsIdentifier c = true) :
    65 ≤ c.toNat ∧ c.toNat ≤ 122 := by
  have hcases : (c.isUpper = true ∨ c.isLower = true) ∨ (c == '_') = true :=
    (Bool.or_eq_true_iff.1 hc).imp_left Bool.or_eq_true_iff.1
  rcases hcases with (hupper | hlower) | hunderscore
  · have hbounds : 65 ≤ c.toNat ∧ c.toNat ≤ 90 := of_decide_eq_true hupper
    omega
  · have hbounds : 97 ≤ c.toNat ∧ c.toNat ≤ 122 :=
      (Bool.and_eq_true_iff.1 hlower).imp of_decide_eq_true of_decide_eq_true
    omega
  · obtain rfl := eq_of_beq hunderscore
    decide

theorem toNat_of_continuesIdentifier (hc : continuesIdentifier c = true) :
    48 ≤ c.toNat ∧ c.toNat ≤ 57 ∨ 65 ≤ c.toNat ∧ c.toNat ≤ 122 :=
  (continuesIdentifier_iff.1 hc).symm.imp toNat_of_isDigit toNat_of_startsIdentifier

theorem isDigit_of_startsIdentifier (hc : startsIdentifier c = true) : c.isDigit = false := by
  have hletter := toNat_of_startsIdentifier hc
  rw [Bool.eq_false_iff]
  intro hdigit
  have hbounds := toNat_of_isDigit hdigit
  omega

theorem isBlank_of_continuesIdentifier (hc : continuesIdentifier c = true) : isBlank c = false := by
  have hrange := toNat_of_continuesIdentifier hc
  simp only [isBlank, blankRanges, List.any_cons, List.any_nil, Bool.or_false,
    Bool.or_eq_false_iff, Bool.and_eq_false_iff, decide_eq_false_iff_not]
  omega

theorem isBlank_space : isBlank ' ' = true := by decide

/-- An identifier is made of the characters that continue one. -/
theorem continuesIdentifier_of_mem {word : List Char} (hword : isIdentifier word = true) :
    ∀ c ∈ word, continuesIdentifier c = true := by
  cases word with
  | nil => cases hword
  | cons first rest =>
      simp only [isIdentifier, Bool.and_eq_true, List.all_eq_true] at hword
      exact List.forall_mem_cons.2 ⟨continuesIdentifier_iff.2 (.inl hword.1), hword.2⟩

theorem isNumeral_iff {chars : List Char} :
    isNumeral chars = true ↔ chars ≠ [] ∧ ∀ c ∈ chars, c.isDigit = true := by
  simp only [isNumeral, Bool.and_eq_true, Bool.not_eq_true', List.isEmpty_eq_false_iff,
    List.all_eq_true, ne_eq]

end WhileCompiler.Text
