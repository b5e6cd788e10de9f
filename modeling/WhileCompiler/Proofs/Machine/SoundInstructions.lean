import WhileCompiler.Proofs.Asm.EmittedCode
import WhileCompiler.Proofs.Machine.Preservation

/-!
# Emitted instructions can be read

Whatever is emitted for a command of standalone code is read by the machine as what it is: the
symbols in it are identifiers, and all numbers fit in a word as long as the frame is not too large.
-/

namespace WhileCompiler

open Asm Ir Text

namespace Asm

section

variable {α β : Type}

theorem operands_map (f : α → β) (instruction : Instruction α) :
    (instruction.map f).operands = instruction.operands.map f := by
  cases instruction <;> rfl

theorem target?_map (f : α → β) (instruction : Instruction α) :
    (instruction.map f).target? = instruction.target? := by
  cases instruction <;> rfl

end

/-- Operands of recipes that are fixed. -/
def Slot.fixed? {arity : Nat} : Slot arity → Option Operand
  | .fixed operand => some operand
  | .argument _ => none

theorem recipe_plain (operator : Operator) :
    ∀ instruction ∈ operator.recipe.body, instruction.target? = none ∧
      ∀ slot ∈ instruction.operands, ∀ operand ∈ slot.fixed?,
        operand ∈ [.register .eax, .register .ecx, .register .edx, .constant 0, .constant 1] := by
  cases operator with
  | compare condition => cases condition <;> decide
  | add | subtract | multiply | divide | remainder | not | negate => decide

end Asm

namespace Machine

/-- The machine reads an instruction as what it is, if the frame is not too large. -/
structure IsSound (frame : Frame) (instruction : Instruction Operand) : Prop where
  target : ∀ target ∈ instruction.target?, isIdentifier target.toList = true
  fits : frame.size < 0x80000000 → ∀ operand ∈ instruction.operands, operand.Fits

section

variable {builtins : Builtins} {frame : Frame}

/-- An instruction that names no symbol. -/
theorem isSound_of_target?_none {instruction : Instruction Operand}
    (htarget : instruction.target? = none)
    (hfits : frame.size < 0x80000000 → ∀ operand ∈ instruction.operands, operand.Fits) :
    IsSound frame instruction := by
  refine ⟨fun target hmem => ?_, hfits⟩
  rw [htarget] at hmem
  cases hmem

/-- An instruction that names a symbol and has no operands. -/
theorem isSound_of_operands_nil {instruction : Instruction Operand}
    (htarget : ∀ target ∈ instruction.target?, isIdentifier target.toList = true)
    (hoperands : instruction.operands = []) : IsSound frame instruction := by
  refine ⟨htarget, fun _ operand hmem => ?_⟩
  rw [hoperands] at hmem
  cases hmem

theorem isSound_move {source destination : Operand}
    (hsource : frame.size < 0x80000000 → source.Fits)
    (hdestination : frame.size < 0x80000000 → destination.Fits) :
    IsSound frame (.move source destination) := by
  apply isSound_of_target?_none rfl
  intro hsize operand hmem
  rcases List.mem_cons.1 hmem with rfl | hmem
  · exact hsource hsize
  · exact List.mem_singleton.1 hmem ▸ hdestination hsize

theorem isSound_store {name : String} {slot : Operand} (hslot : frame.slot name = .ok slot) :
    IsSound frame (.move (.register .eax) slot) :=
  isSound_move (fun _ => trivial) fun hsize => fits_slot hsize hslot

theorem isSound_recipe {operator : Operator} {operands : List Operand}
    (hcount : operands.length = operator.recipe.arity)
    (hoperands : frame.size < 0x80000000 → ∀ operand ∈ operands, operand.Fits) :
    ∀ instruction ∈ operator.recipe.instructions operands hcount, IsSound frame instruction := by
  intro instruction hmem
  obtain ⟨generic, hgeneric, rfl⟩ := List.mem_map.1 hmem
  obtain ⟨htarget, hfixed⟩ := recipe_plain operator generic hgeneric
  apply isSound_of_target?_none
  · rw [target?_map, htarget]
  · intro hsize operand hoperand
    rw [operands_map] at hoperand
    obtain ⟨slot, hslot, rfl⟩ := List.mem_map.1 hoperand
    cases slot with
    | fixed operand =>
        have hlist := hfixed _ hslot operand rfl
        simp only [List.mem_cons, List.not_mem_nil, or_false] at hlist
        rcases hlist with rfl | rfl | rfl | rfl | rfl
        · trivial
        · trivial
        · trivial
        · exact ⟨by decide, by decide⟩
        · exact ⟨by decide, by decide⟩
    | argument index => exact hoperands hsize _ (List.getElem_mem _)

/-- Lines that consist of instructions which the machine reads as what they are. -/
def IsSoundBlock (frame : Frame) (lines : List Line) : Prop :=
  ∃ block : List (Instruction Operand), lines = block.map .instruction ∧
    ∀ instruction ∈ block, IsSound frame instruction

theorem IsSoundBlock.isSound {block : List (Instruction Operand)}
    (hblock : IsSoundBlock frame (block.map .instruction)) :
    ∀ instruction ∈ block, IsSound frame instruction := by
  obtain ⟨sound, hsame, hsound⟩ := hblock
  obtain rfl : block = sound := by
    rw [← instructionsOf_map block, ← instructionsOf_map sound, hsame]
  exact hsound

theorem isSoundBlock_branch {condition : Value} {jump : Instruction Operand} {target : String}
    {lines : List Line} (hjump : jump.target? = some target) (hoperands : jump.operands = [])
    (htarget : isIdentifier target.toList = true)
    (hlines : List.map Line.instruction <$> branch frame condition jump = .ok lines) :
    IsSoundBlock frame lines := by
  obtain ⟨operand, hoperand, rfl⟩ := branch_eq hlines
  refine ⟨_, rfl, fun instruction hmem => ?_⟩
  simp only [List.mem_cons, List.not_mem_nil, or_false] at hmem
  rcases hmem with rfl | rfl | rfl
  · exact isSound_move (fun hsize => fits_operand hsize hoperand) fun _ => trivial
  · apply isSound_of_target?_none rfl
    intro _ operand hmem
    rcases List.mem_cons.1 hmem with rfl | hmem
    · exact ⟨by decide, by decide⟩
    · exact List.mem_singleton.1 hmem ▸ trivial
  · apply isSound_of_operands_nil _ hoperands
    intro other hother
    rw [hjump] at hother
    exact Option.some.inj hother ▸ htarget

theorem isSoundBlock_operator {operator : Operator} {destination function : String}
    {arguments : List Value} {lines : List Line}
    (hrecipe : builtins.recipe? function = some operator.recipe)
    (hlines : emit builtins frame (.call destination function arguments) = .ok lines) :
    IsSoundBlock frame lines := by
  obtain ⟨hcount, found, slot, hfound, hslot, rfl⟩ := emit_operator hrecipe hlines
  refine ⟨_, rfl, fun instruction hmem => ?_⟩
  rcases List.mem_append.1 hmem with hmem | hmem
  · refine isSound_recipe _ (fun hsize operand hoperand => ?_) instruction hmem
    obtain ⟨value, -, hvalue⟩ := exists_of_mem_operands hfound operand hoperand
    exact fits_operand hsize hvalue
  · exact List.mem_singleton.1 hmem ▸ isSound_store hslot

/-- Calls outside the program keep sound what stands around them. -/
theorem isSoundBlock_routine {destination function : String} {arguments : List Value}
    {lines : List Line} (hrecipe : builtins.recipe? function = none)
    (hfunction : isIdentifier function.toList = true)
    (hroom : wordSize * arguments.length < 0x80000000)
    (hlines : emit builtins frame (.call destination function arguments) = .ok lines) :
    IsSoundBlock frame lines := by
  obtain ⟨found, slot, hfound, hslot, rfl⟩ := emit_routine hrecipe hlines
  refine ⟨_, rfl, fun instruction hmem => ?_⟩
  simp only [List.mem_append, List.mem_cons, List.mem_map, List.not_mem_nil, or_false] at hmem
  rcases hmem with (⟨operand, hoperand, rfl⟩ | rfl | hrelease) | rfl
  · apply isSound_of_target?_none rfl
    intro hsize other hother
    obtain ⟨value, -, hvalue⟩ := exists_of_mem_operands hfound operand hoperand
    exact List.mem_singleton.1 hother ▸ fits_operand hsize hvalue
  · exact isSound_of_operands_nil (fun other hother => Option.some.inj hother ▸ hfunction) rfl
  · rw [release] at hrelease
    split at hrelease
    · cases hrelease
    · obtain rfl := List.mem_singleton.1 hrelease
      apply isSound_of_target?_none rfl
      intro _ operand hmem
      rcases List.mem_cons.1 hmem with rfl | hmem
      · exact ⟨by omega, by omega⟩
      · exact List.mem_singleton.1 hmem ▸ trivial
  · exact isSound_store hslot

/-- A call outside the program is to an identifier, and its arguments take up less than half of the
memory. -/
def IsExternalCall (function : String) (arguments : List Value) : Prop :=
  isIdentifier function.toList = true ∧ wordSize * arguments.length < 0x80000000

/-- The lines of a command are its label, or instructions that can be read. -/
theorem emit_cases {command : Command} {lines : List Line}
    (htargets : ∀ target ∈ command.target?, isIdentifier target.toList = true)
    (hcalls : ∀ destination function arguments,
      command = .call destination function arguments → builtins.recipe? function = none →
        IsExternalCall function arguments)
    (hlines : emit builtins frame command = .ok lines) :
    (∃ name, command = .label name ∧ lines = [.label name]) ∨
      command.label? = none ∧ IsSoundBlock frame lines := by
  cases command with
  | label name => exact .inl ⟨name, rfl, (Except.ok.inj hlines).symm⟩
  | copy destination value =>
      obtain ⟨operand, slot, hoperand, hslot, rfl⟩ := emit_copy hlines
      refine .inr ⟨rfl, _, rfl, fun instruction hmem => ?_⟩
      rcases List.mem_cons.1 hmem with rfl | hmem
      · exact isSound_move (fun hsize => fits_operand hsize hoperand) fun _ => trivial
      · exact List.mem_singleton.1 hmem ▸ isSound_store hslot
  | call destination function arguments =>
      refine .inr ⟨rfl, ?_⟩
      cases hrecipe : builtins.recipe? function with
      | none =>
          obtain ⟨hfunction, hroom⟩ := hcalls destination function arguments rfl hrecipe
          exact isSoundBlock_routine hrecipe hfunction hroom hlines
      | some recipe =>
          obtain ⟨operator, -, rfl⟩ := Option.map_eq_some_iff.1 hrecipe
          exact isSoundBlock_operator hrecipe hlines
  | jump target =>
      obtain rfl := Except.ok.inj hlines
      refine .inr ⟨rfl, [.jump target], rfl, fun instruction hmem => ?_⟩
      obtain rfl := List.mem_singleton.1 hmem
      exact isSound_of_operands_nil htargets rfl
  | jumpIf target condition =>
      exact .inr ⟨rfl, isSoundBlock_branch rfl rfl (htargets target rfl) hlines⟩
  | jumpUnless target condition =>
      exact .inr ⟨rfl, isSoundBlock_branch rfl rfl (htargets target rfl) hlines⟩

/-- Standard calls outside the program are to one of two routines. -/
theorem isExternalCall_of_isStandardCall {function : String} {arguments : List Value}
    (hcall : IsStandardCall function arguments)
    (hrecipe : Builtins.standard.recipe? function = none) : IsExternalCall function arguments := by
  rcases hcall with hoperator | ⟨rfl, hcount⟩ | ⟨rfl, rfl⟩
  · obtain ⟨operator, hoperator⟩ := Option.isSome_iff_exists.1 hoperator
    rw [recipe?_standard hoperator] at hrecipe
    cases hrecipe
  · refine ⟨by decide, ?_⟩
    rw [hcount]
    decide
  · exact ⟨by decide, by decide⟩

end

end Machine

end WhileCompiler
