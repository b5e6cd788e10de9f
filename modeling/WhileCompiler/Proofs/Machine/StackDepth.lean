import WhileCompiler.Proofs.Machine.CallingConvention

/-!
# The depth of the stack

How many words lie below the frame in front of an instruction can be told from the code alone:
pushes add one, a release takes some back, and there are none between two commands.  Only the way
through straight code has to be followed for this, since control goes to labels between commands.
-/

namespace WhileCompiler

open Asm Ir Text

namespace Asm

/-- Recipes compute in three registers. -/
theorem recipe_computes (operator : Operator) :
    ∀ instruction ∈ operator.recipe.body, instruction.isPlain = true ∧
      ∀ slot ∈ instruction.written?, slot ∈ [.fixed (.register .eax), .fixed (.register .ecx),
        .fixed (.register .edx)] := by
  cases operator with
  | compare condition => cases condition <;> decide
  | add | subtract | multiply | divide | remainder | not | negate => decide

end Asm

namespace Machine

/-- What commands write: three registers and the variables. -/
def IsLocal (frame : Frame) (operand : Operand) : Prop :=
  operand ∈ [.register .eax, .register .ecx, .register .edx] ∨
    ∃ name, frame.slot name = .ok operand

/-- An instruction that computes, and leaves the stack alone. -/
structure IsComputing (frame : Frame) (instruction : Instruction Operand) : Prop where
  plain : instruction.isPlain = true
  written : ∀ operand ∈ instruction.written?, IsLocal frame operand

section

variable {frame : Frame} {most : Nat} {targets hosts : String → Prop}

theorem not_isLocal_esp : ¬ IsLocal frame (.register .esp) := by
  rintro (hmem | ⟨name, hslot⟩)
  · exact absurd hmem (by decide)
  · obtain ⟨offset, -, heq⟩ := slot_eq hslot
    cases heq

theorem isComputing_move {source destination : Operand} (hdestination : IsLocal frame destination) :
    IsComputing frame (.move source destination) :=
  ⟨rfl, fun _ hmem => Option.some.inj hmem ▸ hdestination⟩

theorem isLocal_eax : IsLocal frame (.register .eax) :=
  .inl List.mem_cons_self

theorem isComputing_recipe {operator : Operator} {operands : List Operand}
    (hcount : operands.length = operator.recipe.arity) :
    ∀ instruction ∈ operator.recipe.instructions operands hcount,
      IsComputing frame instruction := by
  intro instruction hmem
  obtain ⟨generic, hgeneric, rfl⟩ := List.mem_map.1 hmem
  obtain ⟨hplain, hwritten⟩ := recipe_computes operator generic hgeneric
  refine ⟨(Instruction.isPlain_map _ _).trans hplain, fun operand hoperand => .inl ?_⟩
  rw [Instruction.written?_map] at hoperand
  obtain ⟨slot, hslot, rfl⟩ := Option.map_eq_some_iff.1 hoperand
  have hregister := hwritten slot hslot
  simp only [List.mem_cons, List.not_mem_nil, or_false] at hregister
  rcases hregister with rfl | rfl | rfl
  · exact List.mem_cons_self
  · exact List.mem_cons_of_mem _ List.mem_cons_self
  · exact List.mem_cons_of_mem _ (List.mem_cons_of_mem _ List.mem_cons_self)

/-- Instructions in front of which a number of words are on the stack below the frame, but never
more than the most, and none where control goes elsewhere. -/
inductive Balanced (frame : Frame) (most : Nat) (targets hosts : String → Prop) :
    Nat → List (Instruction Operand) → Prop
  | nil : Balanced frame most targets hosts 0 []
  | compute {depth : Nat} {instruction : Instruction Operand} {rest : List (Instruction Operand)} :
      IsComputing frame instruction → Balanced frame most targets hosts depth rest →
      Balanced frame most targets hosts depth (instruction :: rest)
  | push {depth : Nat} {source : Operand} {rest : List (Instruction Operand)} :
      depth < most → Balanced frame most targets hosts (depth + 1) rest →
      Balanced frame most targets hosts depth (.push source :: rest)
  | release {depth count : Nat} {rest : List (Instruction Operand)} :
      Balanced frame most targets hosts depth rest →
      Balanced frame most targets hosts (depth + count)
        (.combine .add (.constant (4 * count : Nat)) (.register .esp) :: rest)
  | call {depth : Nat} {function : String} {rest : List (Instruction Operand)} :
      hosts function → Balanced frame most targets hosts depth rest →
      Balanced frame most targets hosts depth (.call function :: rest)
  | jump {target : String} {instruction : Instruction Operand}
      {rest : List (Instruction Operand)} :
      instruction ∈ [.jump target, .jumpIfEqual target, .jumpIfNotEqual target] → targets target →
      Balanced frame most targets hosts 0 rest →
      Balanced frame most targets hosts 0 (instruction :: rest)

/-- How many words are on the stack in front of instructions that leave none behind. -/
def depthBefore : List (Instruction Operand) → Nat
  | [] => 0
  | .push _ :: rest => depthBefore rest - 1
  | .combine .add (.constant value) (.register .esp) :: rest =>
    depthBefore rest + (value / 4).toNat
  | _ :: rest => depthBefore rest

theorem depthBefore_of_isComputing {instruction : Instruction Operand}
    (hcomputing : IsComputing frame instruction) (rest : List (Instruction Operand)) :
    depthBefore (instruction :: rest) = depthBefore rest := by
  rw [depthBefore]
  · rintro source rfl
    cases hcomputing.plain
  · rintro value rfl
    exact absurd (hcomputing.written _ rfl) not_isLocal_esp

/-- The depth is a matter of the code. -/
theorem Balanced.depth_eq {depth : Nat} {block : List (Instruction Operand)}
    (hblock : Balanced frame most targets hosts depth block) : depth = depthBefore block := by
  induction hblock with
  | nil => rfl
  | compute hcomputing _ ih => rw [depthBefore_of_isComputing hcomputing, ih]
  | push _ _ ih => rw [depthBefore, ← ih, Nat.add_sub_cancel]
  | release _ ih =>
      rw [depthBefore, ← ih]
      omega
  | call _ _ ih => exact ih
  | jump hjump _ _ ih =>
      simp only [List.mem_cons, List.not_mem_nil, or_false] at hjump
      rcases hjump with rfl | rfl | rfl <;> exact ih

theorem Balanced.unique {depth other : Nat} {block : List (Instruction Operand)}
    (hblock : Balanced frame most targets hosts depth block)
    (hother : Balanced frame most targets hosts other block) : depth = other :=
  hblock.depth_eq.trans hother.depth_eq.symm

theorem Balanced.ne_ret {depth : Nat} {instruction : Instruction Operand}
    {rest : List (Instruction Operand)}
    (hblock : Balanced frame most targets hosts depth (instruction :: rest)) :
    instruction ≠ .ret := by
  rintro rfl
  cases hblock with
  | compute hcomputing _ => cases hcomputing.plain
  | jump hjump _ _ => simp at hjump

theorem Balanced.compute_all {depth : Nat} {block rest : List (Instruction Operand)}
    (hblock : ∀ instruction ∈ block, IsComputing frame instruction)
    (hrest : Balanced frame most targets hosts depth rest) :
    Balanced frame most targets hosts depth (block ++ rest) := by
  induction block with
  | nil => exact hrest
  | cons first others ih =>
      rw [List.forall_mem_cons] at hblock
      exact .compute hblock.1 (ih hblock.2)

theorem Balanced.push_all {depth : Nat} {operands : List Operand}
    {rest : List (Instruction Operand)} (hmost : depth + operands.length ≤ most)
    (hrest : Balanced frame most targets hosts (depth + operands.length) rest) :
    Balanced frame most targets hosts depth (operands.map .push ++ rest) := by
  induction operands generalizing depth with
  | nil => exact hrest
  | cons first others ih =>
      have hlength : depth + (others.length + 1) = depth + 1 + others.length := by omega
      rw [List.length_cons, hlength] at hmost hrest
      exact .push (by omega) (ih hmost hrest)

theorem Balanced.release_all {count : Nat} {rest : List (Instruction Operand)}
    (hrest : Balanced frame most targets hosts 0 rest) :
    Balanced frame most targets hosts count (Asm.release count ++ rest) := by
  rw [Asm.release]
  split
  · next hzero => exact hzero ▸ hrest
  · next =>
      have hreleased : Balanced frame most targets hosts (0 + count) _ := .release hrest
      rwa [Nat.zero_add] at hreleased

/-! ## Emitted code -/

/-- A command that calls and goes to nothing but what it may, with not too many arguments. -/
structure IsConfined (builtins : Builtins) (most : Nat) (targets hosts : String → Prop)
    (command : Command) : Prop where
  target : ∀ target ∈ command.target?, targets target
  external : ∀ destination function arguments, command = .call destination function arguments →
    builtins.recipe? function = none → hosts function ∧ arguments.length ≤ most

variable {builtins : Builtins}

theorem Balanced.emit_branch {condition : Value} {jump : Instruction Operand} {target : String}
    {lines : List Line} {rest : List (Instruction Operand)}
    (hjump : jump ∈ [.jump target, .jumpIfEqual target, .jumpIfNotEqual target])
    (htarget : targets target) (hrest : Balanced frame most targets hosts 0 rest)
    (hlines : List.map Line.instruction <$> branch frame condition jump = .ok lines) :
    Balanced frame most targets hosts 0 (instructionsOf lines ++ rest) := by
  obtain ⟨operand, -, rfl⟩ := branch_eq hlines
  rw [instructionsOf_map]
  exact .compute (isComputing_move isLocal_eax) (.compute ⟨rfl, nofun⟩ (.jump hjump htarget hrest))

theorem Balanced.emit_call {destination function : String} {arguments : List Value}
    {lines : List Line} {rest : List (Instruction Operand)}
    (hexternal : builtins.recipe? function = none → hosts function ∧ arguments.length ≤ most)
    (hrest : Balanced frame most targets hosts 0 rest)
    (hlines : emit builtins frame (.call destination function arguments) = .ok lines) :
    Balanced frame most targets hosts 0 (instructionsOf lines ++ rest) := by
  cases hrecipe : builtins.recipe? function with
  | some recipe =>
      obtain ⟨operator, -, rfl⟩ := Option.map_eq_some_iff.1 hrecipe
      obtain ⟨hcount, found, slot, -, hslot, rfl⟩ := emit_operator hrecipe hlines
      rw [instructionsOf_map, List.append_assoc]
      exact .compute_all (isComputing_recipe _)
        (.compute (isComputing_move (.inr ⟨destination, hslot⟩)) hrest)
  | none =>
      obtain ⟨hhost, hcount⟩ := hexternal hrecipe
      obtain ⟨found, slot, -, hslot, rfl⟩ := emit_routine hrecipe hlines
      have hlength : found.val.length = arguments.length := by
        rw [found.property, List.length_reverse]
      rw [instructionsOf_map, List.append_assoc, List.append_assoc]
      apply Balanced.push_all (by omega)
      rw [Nat.zero_add, hlength]
      have hstore : IsComputing frame (.move (.register .eax) slot) :=
        isComputing_move (.inr ⟨destination, hslot⟩)
      exact .call hhost (.release_all (.compute hstore hrest))

/-- What is emitted for a command leaves the stack as it was. -/
theorem Balanced.emit {command : Command} {lines : List Line} {rest : List (Instruction Operand)}
    (hcommand : IsConfined builtins most targets hosts command)
    (hrest : Balanced frame most targets hosts 0 rest)
    (hlines : Asm.emit builtins frame command = .ok lines) :
    Balanced frame most targets hosts 0 (instructionsOf lines ++ rest) := by
  cases command with
  | label name =>
      obtain rfl := Except.ok.inj hlines
      exact hrest
  | copy destination value =>
      obtain ⟨operand, slot, -, hslot, rfl⟩ := emit_copy hlines
      rw [instructionsOf_map]
      exact .compute (isComputing_move isLocal_eax)
        (.compute (isComputing_move (.inr ⟨destination, hslot⟩)) hrest)
  | call destination function arguments =>
      exact .emit_call (hcommand.external destination function arguments rfl) hrest hlines
  | jump target =>
      obtain rfl := Except.ok.inj hlines
      exact .jump List.mem_cons_self (hcommand.target target rfl) hrest
  | jumpIf target condition =>
      exact .emit_branch (by simp) (hcommand.target target rfl) hrest hlines
  | jumpUnless target condition =>
      exact .emit_branch (by simp) (hcommand.target target rfl) hrest hlines

theorem balanced_emitAll {code : List Command} {lines : List Line}
    (hcode : ∀ command ∈ code, IsConfined builtins most targets hosts command)
    (hlines : emitAll builtins frame code = .ok lines) :
    Balanced frame most targets hosts 0 (instructionsOf lines) := by
  induction code generalizing lines with
  | nil =>
      obtain rfl := Except.ok.inj hlines
      exact .nil
  | cons first rest ih =>
      obtain ⟨chunk, others, hchunk, hothers, rfl⟩ := emitAll_cons hlines
      rw [List.forall_mem_cons] at hcode
      rw [instructionsOf_append]
      exact .emit hcode.1 (ih hcode.2 hothers) hchunk

end

end Machine

end WhileCompiler
