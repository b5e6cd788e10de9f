import WhileCompiler.Asm.Routine
import WhileCompiler.Proofs.Results

/-!
# When code can be emitted

Emitting code fails for two reasons only: a command reads a variable that no command assigns, or it
gives an operator the wrong number of operands.
-/

namespace WhileCompiler

namespace Ir

def Value.reads : Value → List String
  | .constant _ => []
  | .variable name => [name]

/-- The variables that a command reads, from left to right. -/
def Command.reads : Command → List String
  | .copy _ value => value.reads
  | .call _ _ arguments => arguments.flatMap Value.reads
  | .jumpIf _ condition | .jumpUnless _ condition => condition.reads
  | .label _ | .jump _ => []

/-- The variables that code assigns, in order. -/
def assigned (code : List Command) : List String :=
  code.filterMap Command.assigned?

theorem mem_assigned {code : List Command} {command : Command} {name : String}
    (hmem : command ∈ code) (hname : name ∈ command.assigned?) : name ∈ assigned code :=
  List.mem_filterMap.2 ⟨command, hmem, hname⟩

end Ir

open Ir

namespace Asm

variable {builtins : Builtins} {frame : Frame} {code : List Command}

theorem mem_names_ofCommands {name : String} :
    name ∈ (Frame.ofCommands code).names ↔ name ∈ assigned code :=
  List.mem_eraseDups

theorem slot_isOk_iff {name : String} :
    (∃ slot, frame.slot name = .ok slot) ↔ name ∈ frame.names := by
  rw [Frame.slot, Frame.offset?]
  cases hindex : frame.names.idxOf? name with
  | none =>
      have hnot : name ∉ frame.names := List.idxOf?_eq_none_iff.1 hindex
      simp [hnot]
  | some index =>
      have hmem : name ∈ frame.names := by
        obtain ⟨hlt, hname, -⟩ := List.idxOf?_eq_some_iff.1 hindex
        exact hname ▸ List.getElem_mem hlt
      simp [hmem]

theorem operand_isOk_iff {value : Value} :
    (∃ operand, frame.operand value = .ok operand) ↔ ∀ name ∈ value.reads, name ∈ frame.names := by
  rcases value with value | name
  · exact ⟨fun _ name hmem => absurd hmem List.not_mem_nil, fun _ => ⟨_, rfl⟩⟩
  · rw [Value.reads, List.forall_mem_singleton]
    exact slot_isOk_iff

theorem operands_isOk_iff {values : List Value} :
    (∃ found, operands frame values = .ok found) ↔
      ∀ name ∈ values.flatMap Value.reads, name ∈ frame.names := by
  induction values with
  | nil => exact ⟨fun _ name hmem => absurd hmem List.not_mem_nil, fun _ => ⟨_, rfl⟩⟩
  | cons first rest ih =>
      rw [List.flatMap_cons, List.forall_mem_append, ← operand_isOk_iff, ← ih]
      simp only [operands, bind_isOk_iff, pure_isOk_iff, and_true, exists_and_right]

theorem store_isOk_iff {destination : String} :
    (∃ stored, store frame destination = .ok stored) ↔ destination ∈ frame.names := by
  simp only [store, bind_isOk_iff, pure_isOk_iff, and_true, slot_isOk_iff]

theorem copied_isOk_iff {destination : String} {value : Value} :
    (∃ lines, copied frame destination value = .ok lines) ↔
      (∀ name ∈ value.reads, name ∈ frame.names) ∧ destination ∈ frame.names := by
  simp only [copied, bind_isOk_iff, pure_isOk_iff, and_true, exists_and_right, operand_isOk_iff,
    store_isOk_iff]

theorem branch_isOk_iff {condition : Value} {jump : Instruction Operand} :
    (∃ lines, branch frame condition jump = .ok lines) ↔
      ∀ name ∈ condition.reads, name ∈ frame.names := by
  simp only [branch, bind_isOk_iff, pure_isOk_iff, and_true, operand_isOk_iff]

theorem inlined_isOk_iff {recipe : Recipe} {destination function : String}
    {arguments : List Value} :
    (∃ lines, inlined frame recipe destination function arguments = .ok lines) ↔
      arguments.length = recipe.arity ∧
        (∀ name ∈ arguments.flatMap Value.reads, name ∈ frame.names) ∧
          destination ∈ frame.names := by
  rw [inlined]
  split
  · next hcount =>
      simp only [hcount, true_and, bind_isOk_iff, pure_isOk_iff, and_true, exists_and_right,
        operands_isOk_iff, store_isOk_iff]
  · next hcount =>
      refine ⟨?_, fun h => absurd h.1 hcount⟩
      rintro ⟨lines, hlines⟩
      cases hlines

theorem called_isOk_iff {destination function : String} {arguments : List Value} :
    (∃ lines, called frame destination function arguments = .ok lines) ↔
      (∀ name ∈ arguments.flatMap Value.reads, name ∈ frame.names) ∧
        destination ∈ frame.names := by
  have hreverse : (∀ name ∈ arguments.reverse.flatMap Value.reads, name ∈ frame.names) ↔
      ∀ name ∈ arguments.flatMap Value.reads, name ∈ frame.names := by
    simp only [List.mem_flatMap, List.mem_reverse]
  have hpushes : (∃ pushed, pushes frame arguments = .ok pushed) ↔
      ∀ name ∈ arguments.flatMap Value.reads, name ∈ frame.names := by
    simp only [pushes, bind_isOk_iff, pure_isOk_iff, and_true, operands_isOk_iff, hreverse]
  simp only [called, bind_isOk_iff, pure_isOk_iff, and_true, exists_and_right, hpushes,
    store_isOk_iff]

/-- An operator is given as many operands as it takes. -/
def HasCount (builtins : Builtins) (command : Command) : Prop :=
  ∀ destination function arguments recipe, command = .call destination function arguments →
    builtins.recipe? function = some recipe → arguments.length = recipe.arity

theorem hasCount_of_ne_call {command : Command}
    (hcall : ∀ destination function arguments, command ≠ .call destination function arguments) :
    HasCount builtins command :=
  fun destination function arguments _ hcommand =>
    absurd hcommand (hcall destination function arguments)

theorem hasCount_of_external {destination function : String} {arguments : List Value}
    (hrecipe : builtins.recipe? function = none) :
    HasCount builtins (.call destination function arguments) := by
  rintro _ _ _ recipe ⟨⟩ hother
  cases hrecipe.symm.trans hother

theorem hasCount_call_iff {destination function : String} {arguments : List Value} {recipe : Recipe}
    (hrecipe : builtins.recipe? function = some recipe) :
    HasCount builtins (.call destination function arguments) ↔
      arguments.length = recipe.arity := by
  refine ⟨fun h => h _ _ _ _ rfl hrecipe, fun hlength => ?_⟩
  rintro _ _ _ other ⟨⟩ hother
  cases hrecipe.symm.trans hother
  exact hlength

/-- Emission of a command succeeds exactly on the right number of arguments and on names that the
frame has. -/
theorem emit_isOk_iff {command : Command} :
    (∃ lines, emit builtins frame command = .ok lines) ↔
      HasCount builtins command ∧ (∀ name ∈ command.reads, name ∈ frame.names) ∧
        ∀ name ∈ command.assigned?, name ∈ frame.names := by
  cases command with
  | copy destination value =>
      have hassigned : (∀ name ∈ (Command.copy destination value).assigned?, name ∈ frame.names) ↔
          destination ∈ frame.names := by
        simp [Command.assigned?]
      rw [emit, map_isOk_iff, copied_isOk_iff, hassigned, Command.reads]
      exact (and_iff_right (hasCount_of_ne_call (by simp))).symm
  | call destination function arguments =>
      have hassigned :
          (∀ name ∈ (Command.call destination function arguments).assigned?, name ∈ frame.names) ↔
            destination ∈ frame.names := by
        simp [Command.assigned?]
      rw [emit, map_isOk_iff, hassigned, Command.reads]
      split
      · next recipe hrecipe => rw [inlined_isOk_iff, hasCount_call_iff hrecipe]
      · next hrecipe =>
          rw [called_isOk_iff]
          exact (and_iff_right (hasCount_of_external hrecipe)).symm
  | label name =>
      rw [emit, pure_isOk_iff, true_iff]
      exact ⟨hasCount_of_ne_call (by simp), by simp [Command.reads], by simp [Command.assigned?]⟩
  | jump target =>
      rw [emit, pure_isOk_iff, true_iff]
      exact ⟨hasCount_of_ne_call (by simp), by simp [Command.reads], by simp [Command.assigned?]⟩
  | jumpIf target condition =>
      rw [emit, map_isOk_iff, branch_isOk_iff]
      exact ⟨fun h => ⟨hasCount_of_ne_call (by simp), h, by simp [Command.assigned?]⟩,
        fun h => h.2.1⟩
  | jumpUnless target condition =>
      rw [emit, map_isOk_iff, branch_isOk_iff]
      exact ⟨fun h => ⟨hasCount_of_ne_call (by simp), h, by simp [Command.assigned?]⟩,
        fun h => h.2.1⟩

theorem emitAll_isOk_iff :
    (∃ lines, emitAll builtins frame code = .ok lines) ↔
      ∀ command ∈ code, ∃ lines, emit builtins frame command = .ok lines := by
  induction code with
  | nil => exact ⟨fun _ command hmem => absurd hmem List.not_mem_nil, fun _ => ⟨_, rfl⟩⟩
  | cons first rest ih =>
      rw [List.forall_mem_cons, ← ih]
      simp only [emitAll, bind_isOk_iff, pure_isOk_iff, and_true, exists_and_right]

/-- Code can be emitted if its operators are given as many operands as they take, and every variable
that it reads is assigned by some command. -/
theorem listing_isOk_iff :
    (∃ lines, listing builtins code = .ok lines) ↔
      ∀ command ∈ code,
        HasCount builtins command ∧ ∀ name ∈ command.reads, name ∈ assigned code := by
  simp only [listing, Routine.ofCommands, bind_isOk_iff, pure_isOk_iff, and_true, emitAll_isOk_iff,
    emit_isOk_iff, mem_names_ofCommands]
  refine forall₂_congr fun command hmem => ?_
  exact and_congr_right fun _ => and_iff_left fun _ => mem_assigned hmem

end Asm

end WhileCompiler
