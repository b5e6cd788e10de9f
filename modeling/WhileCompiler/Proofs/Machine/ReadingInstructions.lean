import WhileCompiler.Proofs.Machine.Reading

/-!
# Reading back instructions

Every instruction takes up one place in the code, whatever its operands are.  The place runs this
very instruction if each number in the operands fits in a word.
-/

namespace WhileCompiler

open Asm Text

namespace Machine

/-! ## Words -/

theorem isPlain_of_continuesIdentifier {c : Char} (hc : continuesIdentifier c = true) :
    IsPlain c ∧ c ≠ '.' := by
  have hrange := toNat_of_continuesIdentifier hc
  refine ⟨⟨isBlank_of_continuesIdentifier hc, ?_, ?_⟩, ?_⟩
  all_goals
    rintro rfl
    exact absurd hrange (by decide)

theorem isPlain_of_isDigit {c : Char} (hc : c.isDigit = true) : IsPlain c :=
  (isPlain_of_continuesIdentifier (continuesIdentifier_iff.2 (.inr hc))).1

theorem isWord_of_isIdentifier {name : String} (hname : isIdentifier name.toList = true) :
    IsWord name.toList ∧ name.toList.head? ≠ some '.' := by
  have hplain (c : Char) (hc : c ∈ name.toList) : IsPlain c ∧ c ≠ '.' :=
    isPlain_of_continuesIdentifier (continuesIdentifier_of_mem hname c hc)
  refine ⟨⟨?_, fun c hc => (hplain c hc).1⟩, ?_⟩
  · rintro heq
    rw [heq] at hname
    cases hname
  · rintro heq
    exact (hplain '.' (List.mem_of_mem_head? heq)).2 rfl

theorem mem_toString_int {number : Int} {c : Char} (hc : c ∈ (toString number).toList) :
    c.isDigit = true ∨ c = '-' := by
  by_cases hneg : number < 0
  · obtain ⟨magnitude, rfl⟩ : ∃ magnitude : Nat, number = -(magnitude : Int) :=
      ⟨number.natAbs, by omega⟩
    rw [toList_toString_neg (by omega)] at hc
    rcases List.mem_cons.1 hc with rfl | hc
    · exact .inr rfl
    · exact .inl (isDigit_of_mem_toString hc)
  · obtain ⟨magnitude, rfl⟩ := Int.eq_ofNat_of_zero_le (Int.not_lt.1 hneg)
    exact .inl (isDigit_of_mem_toString hc)

theorem isPlain_of_mem_toString_int {number : Int} {c : Char}
    (hc : c ∈ (toString number).toList) : IsPlain c := by
  rcases mem_toString_int hc with hdigit | rfl
  · exact isPlain_of_isDigit hdigit
  · decide

theorem isWord_registerText (register : Register) : IsWord register.text.toList := by
  cases register <;> decide

theorem toList_constantText (value : Int) :
    (Operand.constant value).text.toList = '$' :: (toString value).toList := by
  simp [Operand.text, String.toList_append, toString]

theorem toList_memoryText (displacement : Int) (base : Register) :
    (Operand.memory displacement base).text.toList =
      (toString displacement).toList ++ '(' :: (base.text.toList ++ [')']) := by
  simp [Operand.text, String.toList_append, toString]

theorem isWord_operandText (operand : Operand) : IsWord operand.text.toList := by
  cases operand with
  | constant value =>
      rw [toList_constantText]
      refine ⟨List.cons_ne_nil _ _, fun c hc => ?_⟩
      rcases List.mem_cons.1 hc with rfl | hc
      · decide
      · exact isPlain_of_mem_toString_int hc
  | register name => exact isWord_registerText name
  | memory displacement base =>
      rw [toList_memoryText]
      refine ⟨by simp, fun c hc => ?_⟩
      simp only [List.mem_append, List.mem_cons, List.not_mem_nil, or_false] at hc
      rcases hc with hc | rfl | hc | rfl
      · exact isPlain_of_mem_toString_int hc
      · decide
      · exact (isWord_registerText base).plain c hc
      · decide

end Machine

namespace Asm

/-- Whether the number in an operand fits in a word. -/
def Operand.Fits : Operand → Prop
  | .constant value => -0x80000000 ≤ value ∧ value ≤ 0x7FFFFFFF
  | .register _ => True
  | .memory displacement _ => -0x80000000 ≤ displacement ∧ displacement ≤ 0x7FFFFFFF

instance : (operand : Operand) → Decidable operand.Fits
  | .constant _ => inferInstanceAs (Decidable (_ ∧ _))
  | .register _ => isTrue trivial
  | .memory _ _ => inferInstanceAs (Decidable (_ ∧ _))

namespace Instruction

variable {α : Type}

def operands : Instruction α → List α
  | move source destination | combine _ source destination | compare source destination
  | moveIf _ source destination => [source, destination]
  | negate operand | divide operand | push operand | pop operand => [operand]
  | extendSign | jump _ | jumpIfEqual _ | jumpIfNotEqual _ | call _ | ret | systemCall => []

/-- The symbol that an instruction transfers control to. -/
def target? : Instruction α → Option String
  | jump label | jumpIfEqual label | jumpIfNotEqual label | call label => some label
  | move _ _ | combine _ _ _ | negate _ | extendSign | divide _ | compare _ _ | moveIf _ _ _
  | push _ | pop _ | ret | systemCall => none

end Instruction

end Asm

namespace Machine

theorem readRegister?_eq_none {text : List Char} (hhead : text.head? ≠ some '%') :
    readRegister? text = none := by
  rw [readRegister?, List.find?_eq_none]
  intro register _ heq
  have hregister : register.text.toList.head? = some '%' := by cases register <;> decide
  rw [of_decide_eq_true heq] at hregister
  exact hhead hregister

theorem readOperand?_constant {value : Int} (hlower : -0x80000000 ≤ value)
    (hupper : value ≤ 0x7FFFFFFF) :
    readOperand? (Operand.constant value).text.toList = some (.constant value) := by
  rw [toList_constantText, readOperand?, readInt32_toString_int hlower hupper]
  simp [Except.toOption, Int32.toInt_ofInt_of_le hlower (by omega)]

theorem readOperand?_memory {displacement : Int} (hlower : -0x80000000 ≤ displacement)
    (hupper : displacement ≤ 0x7FFFFFFF) (base : Register) :
    readOperand? (Operand.memory displacement base).text.toList =
      some (.memory displacement base) := by
  have hnumber := readInt32_toString_int hlower hupper
  have hchars : ∀ c ∈ (toString displacement).toList, c ≠ '(' ∧ c ≠ '$' ∧ c ≠ '%' := by
    intro c hc
    rcases mem_toString_int hc with hdigit | rfl
    · refine ⟨?_, ?_, ?_⟩ <;> (rintro rfl; cases hdigit)
    · decide
  have hbase : readBase? ('(' :: (base.text.toList ++ [')'])) = some base := by
    cases base <;> decide
  rw [toList_memoryText]
  generalize (toString displacement).toList = chars at hnumber hchars
  obtain _ | ⟨first, rest⟩ := chars
  · cases hnumber
  have hparen : ∀ c ∈ first :: rest, decide (c ≠ '(') = true := fun c hc =>
    decide_eq_true (hchars c hc).1
  have hdisplacement : readDisplacement? (first :: rest) = some displacement := by
    rw [readDisplacement?, if_neg (List.cons_ne_nil first rest), hnumber]
    simp [Except.toOption, Int32.toInt_ofInt_of_le hlower (by omega)]
  have hregister :
      readRegister? ((first :: rest) ++ '(' :: (base.text.toList ++ [')'])) = none := by
    refine readRegister?_eq_none ?_
    simpa using (hchars first List.mem_cons_self).2.2
  rw [readOperand?.eq_def]
  split
  · next heq =>
      cases heq
      exact absurd rfl (hchars '$' List.mem_cons_self).2.1
  · rw [hregister, List.takeWhile_append_of_pos hparen, List.dropWhile_append_of_pos hparen]
    simp [hbase, hdisplacement]

theorem readOperand_text {operand : Operand} (hfits : operand.Fits) :
    readOperand operand.text.toList = .ok operand := by
  have hread : readOperand? operand.text.toList = some operand := by
    cases operand with
    | constant value => exact readOperand?_constant hfits.1 hfits.2
    | register name =>
        cases name <;> decide
    | memory displacement base => exact readOperand?_memory hfits.1 hfits.2 base
  rw [readOperand, hread]

/-! ## Instructions -/

theorem readOne_text {mnemonic : String} {operand : Operand}
    {instruction : Operand → Instruction Operand} (hfits : operand.Fits) :
    readOne mnemonic [operand.text.toList] instruction = .ok (instruction operand) := by
  rw [readOne, readOperand_text hfits]
  rfl

theorem readTwo_text {mnemonic : String} {source destination : Operand}
    {instruction : Operand → Operand → Instruction Operand} (hsource : source.Fits)
    (hdestination : destination.Fits) :
    readTwo mnemonic [source.text.toList, destination.text.toList] instruction =
      .ok (instruction source destination) := by
  rw [readTwo, readOperand_text hsource]
  exact readOne_text hdestination

/-- A line of text takes up one place in the code, which runs the instruction that the text stands
for, unless a number in it is too large. -/
def Reads (text : String) (instruction : Instruction Operand) : Prop :=
  ∃ cell, readLine? (indented text) = some (.cell cell) ∧
    ((∀ operand ∈ instruction.operands, operand.Fits) → cell = .run instruction)

section

variable {mnemonic : String}

theorem reads_one (hmnemonic : IsMnemonic mnemonic) {code : Operand → Instruction Operand}
    (hread : ∀ operands, readCell mnemonic operands = .ofExcept (readOne mnemonic operands code))
    {operand : Operand} (hoperands : (code operand).operands = [operand]) :
    Reads (written mnemonic [operand.text]) (code operand) := by
  refine ⟨_, readLine?_written (by simp) hmnemonic ?_, fun hfits => ?_⟩
  · intro text htext
    obtain rfl := List.mem_singleton.1 htext
    exact isWord_operandText operand
  · rw [hoperands] at hfits
    rw [List.map_singleton, hread, readOne_text (hfits operand List.mem_cons_self)]
    rfl

theorem reads_two (hmnemonic : IsMnemonic mnemonic)
    {code : Operand → Operand → Instruction Operand}
    (hread : ∀ operands instruction, readTwo mnemonic operands code = .ok instruction →
      readCell mnemonic operands = .run instruction)
    {source destination : Operand}
    (hoperands : (code source destination).operands = [source, destination]) :
    Reads (written mnemonic [source.text, destination.text]) (code source destination) := by
  refine ⟨_, readLine?_written (by simp) hmnemonic ?_, fun hfits => ?_⟩
  · intro text htext
    simp only [List.mem_cons, List.not_mem_nil, or_false] at htext
    rcases htext with rfl | rfl
    · exact isWord_operandText source
    · exact isWord_operandText destination
  · rw [hoperands] at hfits
    exact hread _ _ (readTwo_text (hfits source (by simp)) (hfits destination (by simp)))

theorem reads_transfer (hmnemonic : IsMnemonic mnemonic) {missing : Fault → Cell}
    {code : String → Instruction Operand} {target : String}
    (hread : ∀ operands, readCell mnemonic operands = readTransfer operands missing code)
    (htarget : isIdentifier target.toList = true) :
    Reads (written mnemonic [target]) (code target) := by
  refine ⟨_, readLine?_written (by simp) hmnemonic ?_, fun _ => ?_⟩
  · intro text htext
    obtain rfl := List.mem_singleton.1 htext
    exact (isWord_of_isIdentifier htarget).1
  · rw [hread]
    simp [readTransfer]

end

/-- Every instruction is read back as one, if the symbol that it may go to is an identifier. -/
theorem reads_instruction (instruction : Instruction Operand)
    (htarget : ∀ target ∈ instruction.target?, isIdentifier target.toList = true) :
    Reads (instruction.text Operand.text) instruction := by
  have htwo {mnemonic : String} {code : Operand → Operand → Instruction Operand}
      (hcell : ∀ operands, readCell mnemonic operands = .ofExcept (readTwo mnemonic operands code))
      (operands : List (List Char)) (instruction : Instruction Operand)
      (hread : readTwo mnemonic operands code = .ok instruction) :
      readCell mnemonic operands = .run instruction := by
    rw [hcell, hread]
    rfl
  cases instruction with
  | move source destination =>
      exact reads_two (by decide) (htwo fun _ => rfl) rfl
  | combine operation source destination =>
      refine reads_two ?_ (htwo ?_) rfl
      · cases operation <;> decide
      · cases operation <;> exact fun _ => rfl
  | negate destination => exact reads_one (by decide) (fun _ => rfl) rfl
  | extendSign => exact ⟨.run .extendSign, rfl, fun _ => rfl⟩
  | divide divisor => exact reads_one (by decide) (fun _ => rfl) rfl
  | compare source destination =>
      exact reads_two (by decide) (htwo fun _ => rfl) rfl
  | moveIf condition source destination =>
      refine reads_two ?_ ?_ rfl
      · cases condition <;> decide
      · intro operands instruction hread
        have hcell : readCell s!"cmov{condition.text}" operands =
            readMoveIf s!"cmov{condition.text}" condition operands := by
          cases condition <;> rfl
        rw [hcell, readMoveIf, hread]
  | jump label =>
      exact reads_transfer (by decide) (fun _ => rfl) (htarget _ rfl)
  | jumpIfEqual label =>
      exact reads_transfer (by decide) (fun _ => rfl) (htarget _ rfl)
  | jumpIfNotEqual label =>
      exact reads_transfer (by decide) (fun _ => rfl) (htarget _ rfl)
  | push source => exact reads_one (by decide) (fun _ => rfl) rfl
  | pop destination => exact reads_one (by decide) (fun _ => rfl) rfl
  | call target =>
      exact reads_transfer (by decide) (fun _ => rfl) (htarget _ rfl)
  | ret => exact ⟨.run .ret, rfl, fun _ => rfl⟩
  | systemCall => exact ⟨.run .systemCall, rfl, fun _ => rfl⟩

end Machine

end WhileCompiler
