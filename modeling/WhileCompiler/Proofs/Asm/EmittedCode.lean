import WhileCompiler.Asm.Routine
import WhileCompiler.Proofs.Results

/-!
# What is emitted

When the lines of a command could be emitted, every variable in it has a word in the frame, and the
lines are a fixed sequence of instructions for these words.
-/

namespace WhileCompiler

open Ir

namespace Asm

variable {frame : Frame} {lines : List Line}

/-- One operand for each value. -/
abbrev OperandsOf (values : List Value) :=
  { operands : List Operand // operands.length = values.length }

theorem operands_cons {first : Value} {rest : List Value} {found : OperandsOf (first :: rest)}
    (hfound : operands frame (first :: rest) = .ok found) :
    ∃ operand others, frame.operand first = .ok operand ∧ operands frame rest = .ok others ∧
      found.val = operand :: others.val := by
  obtain ⟨operand, hfirst, hrest⟩ := bind_eq_ok.1 hfound
  obtain ⟨others, hothers, hpure⟩ := bind_eq_ok.1 hrest
  exact ⟨operand, others, hfirst, hothers, (congrArg Subtype.val (Except.ok.inj hpure)).symm⟩

/-- Every operand stands for one of the values. -/
theorem exists_of_mem_operands {values : List Value} {found : OperandsOf values}
    (hfound : operands frame values = .ok found) :
    ∀ operand ∈ found.val, ∃ value ∈ values, frame.operand value = .ok operand := by
  induction values with
  | nil =>
      obtain rfl := Except.ok.inj hfound
      intro operand hmem
      cases hmem
  | cons first rest ih =>
      obtain ⟨operand, others, hfirst, hothers, hval⟩ := operands_cons hfound
      intro other hmem
      rw [hval] at hmem
      rcases List.mem_cons.1 hmem with rfl | hmem
      · exact ⟨first, List.mem_cons_self, hfirst⟩
      · obtain ⟨value, hvalue, hoperand⟩ := ih hothers other hmem
        exact ⟨value, List.mem_cons_of_mem _ hvalue, hoperand⟩

/-- The operands stand in the order of the values. -/
theorem operands_getElem? {values : List Value} {found : OperandsOf values}
    (hfound : operands frame values = .ok found) {index : Nat} {value : Value}
    (hvalue : values[index]? = some value) :
    ∃ operand, frame.operand value = .ok operand ∧ found.val[index]? = some operand := by
  induction values generalizing index with
  | nil => cases hvalue
  | cons first rest ih =>
      obtain ⟨operand, others, hfirst, hothers, hval⟩ := operands_cons hfound
      rw [hval]
      cases index with
      | zero =>
          obtain rfl := Option.some.inj hvalue
          exact ⟨operand, hfirst, rfl⟩
      | succ index => exact ih hothers hvalue

/-- Reading the operands gives what the values are. -/
theorem map_operands {α : Type} {read : Operand → α} {meaning : Value → α}
    (hread : ∀ value operand, frame.operand value = .ok operand → read operand = meaning value)
    {values : List Value} {found : OperandsOf values}
    (hfound : operands frame values = .ok found) : found.val.map read = values.map meaning := by
  induction values with
  | nil =>
      obtain rfl := Except.ok.inj hfound
      rfl
  | cons first rest ih =>
      obtain ⟨operand, others, hfirst, hothers, hval⟩ := operands_cons hfound
      rw [hval, List.map_cons, List.map_cons, hread first operand hfirst, ih hothers]

/-! ## Commands -/

theorem store_eq {destination : String} {instructions : Instructions}
    (hstore : store frame destination = .ok instructions) :
    ∃ slot, frame.slot destination = .ok slot ∧
      instructions = [.move (.register .eax) slot] := by
  obtain ⟨slot, hslot, hpure⟩ := bind_eq_ok.1 hstore
  exact ⟨slot, hslot, (Except.ok.inj hpure).symm⟩

theorem emit_copy {builtins : Builtins} {destination : String} {value : Value}
    (hlines : emit builtins frame (.copy destination value) = .ok lines) :
    ∃ operand slot, frame.operand value = .ok operand ∧ frame.slot destination = .ok slot ∧
      lines = [Instruction.move operand (.register .eax),
        .move (.register .eax) slot].map .instruction := by
  obtain ⟨instructions, hcopied, rfl⟩ := map_eq_ok.1 hlines
  obtain ⟨operand, hoperand, hrest⟩ := bind_eq_ok.1 hcopied
  obtain ⟨stored, hstored, hpure⟩ := bind_eq_ok.1 hrest
  obtain ⟨slot, hslot, rfl⟩ := store_eq hstored
  exact ⟨operand, slot, hoperand, hslot, congrArg _ (Except.ok.inj hpure).symm⟩

theorem emit_operator {builtins : Builtins} {recipe : Recipe} {destination function : String}
    {arguments : List Value} (hrecipe : builtins.recipe? function = some recipe)
    (hlines : emit builtins frame (.call destination function arguments) = .ok lines) :
    ∃ (hcount : arguments.length = recipe.arity) (found : OperandsOf arguments)
      (slot : Operand), operands frame arguments = .ok found ∧
        frame.slot destination = .ok slot ∧
        lines = (recipe.instructions found.val (found.property.trans hcount) ++
          [Instruction.move (.register .eax) slot]).map Line.instruction := by
  obtain ⟨instructions, hinlined, rfl⟩ := map_eq_ok.1 hlines
  simp only [hrecipe, inlined] at hinlined
  split at hinlined
  · next hcount =>
      obtain ⟨found, hfound, hrest⟩ := bind_eq_ok.1 hinlined
      obtain ⟨stored, hstored, hpure⟩ := bind_eq_ok.1 hrest
      obtain ⟨slot, hslot, rfl⟩ := store_eq hstored
      exact ⟨hcount, found, slot, hfound, hslot, congrArg _ (Except.ok.inj hpure).symm⟩
  · cases hinlined

/-- The text of an operator is its recipe, filled with the texts of the operands, and a store. -/
theorem text_emit_operator {builtins : Builtins} {recipe : Recipe} {destination function : String}
    {arguments : List Value} (hrecipe : builtins.recipe? function = some recipe)
    (hlines : emit builtins frame (.call destination function arguments) = .ok lines) :
    ∃ (found : OperandsOf arguments) (slot : Operand) (code : List String),
      operands frame arguments = .ok found ∧ frame.slot destination = .ok slot ∧
        recipe.lines? (found.val.map Operand.text) = some code ∧
        lines.map Line.text =
          code ++ [(Instruction.move (.register .eax) slot).text Operand.text] := by
  obtain ⟨hcount, found, slot, hfound, hslot, rfl⟩ := emit_operator hrecipe hlines
  refine ⟨found, slot, _, hfound, hslot, recipe.lines?_map_text (found.property.trans hcount), ?_⟩
  rw [List.map_map, List.map_append]
  rfl

theorem emit_routine {builtins : Builtins} {destination function : String}
    {arguments : List Value} (hrecipe : builtins.recipe? function = none)
    (hlines : emit builtins frame (.call destination function arguments) = .ok lines) :
    ∃ (found : OperandsOf arguments.reverse) (slot : Operand),
      operands frame arguments.reverse = .ok found ∧ frame.slot destination = .ok slot ∧
        lines = (found.val.map Instruction.push ++
          Instruction.call function :: release arguments.length ++
            [Instruction.move (.register .eax) slot]).map Line.instruction := by
  obtain ⟨instructions, hcalled, rfl⟩ := map_eq_ok.1 hlines
  simp only [hrecipe, called] at hcalled
  obtain ⟨pushed, hpushed, hrest⟩ := bind_eq_ok.1 hcalled
  obtain ⟨stored, hstored, hpure⟩ := bind_eq_ok.1 hrest
  obtain ⟨slot, hslot, rfl⟩ := store_eq hstored
  obtain ⟨found, hfound, hpushes⟩ := bind_eq_ok.1 hpushed
  obtain rfl := Except.ok.inj hpushes
  exact ⟨found, slot, hfound, hslot, congrArg _ (Except.ok.inj hpure).symm⟩

theorem branch_eq {condition : Value} {jump : Instruction Operand}
    (hlines : List.map Line.instruction <$> branch frame condition jump = .ok lines) :
    ∃ operand, frame.operand condition = .ok operand ∧
      lines = [.move operand (.register .eax), .compare (.constant 0) (.register .eax),
        jump].map .instruction := by
  obtain ⟨instructions, hbranch, rfl⟩ := map_eq_ok.1 hlines
  obtain ⟨operand, hoperand, hpure⟩ := bind_eq_ok.1 hbranch
  exact ⟨operand, hoperand, congrArg _ (Except.ok.inj hpure).symm⟩

/-! ## Code -/

theorem emitAll_cons {builtins : Builtins} {first : Command} {rest : List Command}
    (hlines : emitAll builtins frame (first :: rest) = .ok lines) :
    ∃ chunk others, emit builtins frame first = .ok chunk ∧
      emitAll builtins frame rest = .ok others ∧ lines = chunk ++ others := by
  obtain ⟨chunk, hchunk, hrest⟩ := bind_eq_ok.1 hlines
  obtain ⟨others, hothers, hpure⟩ := bind_eq_ok.1 hrest
  exact ⟨chunk, others, hchunk, hothers, (Except.ok.inj hpure).symm⟩

/-- Code is emitted piece by piece. -/
theorem emitAll_append {builtins : Builtins} {left right : List Command}
    (hlines : emitAll builtins frame (left ++ right) = .ok lines) :
    ∃ before after, emitAll builtins frame left = .ok before ∧
      emitAll builtins frame right = .ok after ∧ lines = before ++ after := by
  induction left generalizing lines with
  | nil => exact ⟨[], lines, rfl, hlines, rfl⟩
  | cons first rest ih =>
      obtain ⟨chunk, others, hchunk, hothers, rfl⟩ := emitAll_cons hlines
      obtain ⟨before, after, hbefore, hafter, rfl⟩ := ih hothers
      refine ⟨chunk ++ before, after, ?_, hafter, (List.append_assoc _ _ _).symm⟩
      rw [emitAll, hchunk, hbefore]
      rfl

theorem listing_eq {builtins : Builtins} {commands : List Command} {listed : List String}
    (hlisting : listing builtins commands = .ok listed) :
    ∃ (routine : Routine) (emitted : List Line),
      emitAll builtins (Frame.ofCommands commands) commands = .ok emitted ∧
      routine.lines = (prologue (Frame.ofCommands commands)).map .instruction ++ emitted ++
        epilogue.map .instruction ∧
      routine.externals = (commands.filterMap (external? builtins)).foldr insertName [] ∧
      listed = routine.program.map fun line => indented line.text := by
  obtain ⟨routine, hroutine, hpure⟩ := bind_eq_ok.1 hlisting
  obtain ⟨emitted, hemitted, hlines⟩ := bind_eq_ok.1 hroutine
  obtain rfl := Except.ok.inj hlines
  exact ⟨_, emitted, hemitted, rfl, rfl, (Except.ok.inj hpure).symm⟩

end Asm

end WhileCompiler
