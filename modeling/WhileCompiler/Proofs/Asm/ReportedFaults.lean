import WhileCompiler.Proofs.Asm.EmissionFaults

/-!
# The fault that is reported

A command is broken if it gives an operator the wrong number of operands or reads a variable that no
command of the code assigns.  Code with a broken command has no routine, and the fault that is
reported is that of the first such command.  A wrong number of operands hides the operands
themselves; of these, the first that is looked up is reported, which is the leftmost one except in a
call outside the program, whose last argument is pushed first.
-/

namespace WhileCompiler

namespace Ir

/-- The values that a command reads, from left to right. -/
def Command.operands : Command → List Value
  | .copy _ value => [value]
  | .call _ _ arguments => arguments
  | .jumpIf _ condition | .jumpUnless _ condition => [condition]
  | .label _ | .jump _ => []

/-- Among values, the first variable that no command of the code assigns is the one of this name. -/
def FirstUnassigned (code : List Command) (values : List Value) (name : String) : Prop :=
  ∃ before after, values = before ++ .variable name :: after ∧
    (∀ other, .variable other ∈ before → other ∈ assigned code) ∧ name ∉ assigned code

variable {code : List Command} {name : String}

theorem Value.mem_reads {value : Value} : name ∈ value.reads ↔ value = .variable name := by
  rcases value with value | other
  · simp [Value.reads]
  · simp [Value.reads, eq_comm]

theorem Command.mem_reads {command : Command} :
    name ∈ command.reads ↔ .variable name ∈ command.operands := by
  cases command with
  | copy destination value => simp [reads, operands, Value.mem_reads, eq_comm]
  | call destination function arguments => simp [reads, operands, Value.mem_reads]
  | label name => simp [reads, operands]
  | jump target => simp [reads, operands]
  | jumpIf target condition => simp [reads, operands, Value.mem_reads, eq_comm]
  | jumpUnless target condition => simp [reads, operands, Value.mem_reads, eq_comm]

theorem not_firstUnassigned_nil : ¬FirstUnassigned code [] name := by
  rintro ⟨before, after, hvalues, -, -⟩
  simp at hvalues

theorem firstUnassigned_cons {first : Value} {rest : List Value} :
    FirstUnassigned code (first :: rest) name ↔
      first = .variable name ∧ name ∉ assigned code ∨
        (∀ other ∈ first.reads, other ∈ assigned code) ∧ FirstUnassigned code rest name := by
  simp only [Value.mem_reads]
  constructor
  · rintro ⟨before, after, hvalues, hbefore, hname⟩
    rcases List.cons_eq_append_iff.1 hvalues with ⟨rfl, hvalues⟩ | ⟨front, rfl, rfl⟩
    · exact .inl ⟨(List.cons.inj hvalues).1, hname⟩
    · refine .inr ⟨fun other hother => hbefore other ?_, front, after, rfl, ?_, hname⟩
      · exact hother ▸ List.mem_cons_self
      · exact fun other hmem => hbefore other (List.mem_cons_of_mem first hmem)
  · rintro (⟨rfl, hname⟩ | ⟨hfirst, before, after, rfl, hbefore, hname⟩)
    · exact ⟨[], rest, rfl, by simp, hname⟩
    · refine ⟨first :: before, after, rfl, fun other hmem => ?_, hname⟩
      rcases List.mem_cons.1 hmem with hother | hmem
      · exact hfirst other hother.symm
      · exact hbefore other hmem

theorem firstUnassigned_singleton {value : Value} :
    FirstUnassigned code [value] name ↔ value = .variable name ∧ name ∉ assigned code := by
  simp only [firstUnassigned_cons, not_firstUnassigned_nil, and_false, or_false]

end Ir

open Ir

namespace Asm

/-! ## Looking up operands -/

section

variable {builtins : Builtins} {code : List Command} {error : EmissionError}

theorem slot_eq_error_iff {name : String} :
    (Frame.ofCommands code).slot name = .error error ↔
      error = .neverAssigned name ∧ name ∉ assigned code := by
  rw [← mem_names_ofCommands, ← List.idxOf?_eq_none_iff, Frame.slot, Frame.offset?]
  cases (Frame.ofCommands code).names.idxOf? name with
  | none => simp [eq_comm]
  | some index => simp

theorem operand_eq_error_iff {value : Value} :
    (Frame.ofCommands code).operand value = .error error ↔
      ∃ name, error = .neverAssigned name ∧ FirstUnassigned code [value] name := by
  simp only [firstUnassigned_singleton]
  rcases value with value | name
  · simp [Frame.operand]
  · rw [Frame.operand, slot_eq_error_iff]
    constructor
    · exact fun h => ⟨name, h.1, rfl, h.2⟩
    · rintro ⟨other, herror, ⟨⟩, hother⟩
      exact ⟨herror, hother⟩

theorem operands_eq_error_iff {values : List Value} :
    operands (Frame.ofCommands code) values = .error error ↔
      ∃ name, error = .neverAssigned name ∧ FirstUnassigned code values name := by
  induction values with
  | nil => simp [operands, not_firstUnassigned_nil, pure, Except.pure]
  | cons first rest ih =>
      have hfirst : (∃ operand, (Frame.ofCommands code).operand first = .ok operand) ↔
          ∀ other ∈ first.reads, other ∈ assigned code := by
        simp only [operand_isOk_iff, mem_names_ofCommands]
      rw [operands, bind_eq_error, operand_eq_error_iff]
      simp only [bind_pure_eq_error, ih, firstUnassigned_cons, not_firstUnassigned_nil, and_false,
        or_false]
      constructor
      · rintro (⟨name, rfl, hname⟩ | ⟨operand, hoperand, name, rfl, hname⟩)
        · exact ⟨name, rfl, .inl hname⟩
        · exact ⟨name, rfl, .inr ⟨hfirst.1 ⟨operand, hoperand⟩, hname⟩⟩
      · rintro ⟨name, rfl, hname | ⟨hreads, hname⟩⟩
        · exact .inl ⟨name, rfl, hname⟩
        · obtain ⟨operand, hoperand⟩ := hfirst.2 hreads
          exact .inr ⟨operand, hoperand, name, rfl, hname⟩

/-! ## The parts of a command -/

/-- A command can store its result: a destination is assigned. -/
theorem store_isOk {destination : String} (hdestination : destination ∈ assigned code) :
    ∃ stored, store (Frame.ofCommands code) destination = .ok stored :=
  store_isOk_iff.2 (mem_names_ofCommands.2 hdestination)

theorem copied_eq_error_iff {destination : String} {value : Value}
    (hdestination : destination ∈ assigned code) :
    copied (Frame.ofCommands code) destination value = .error error ↔
      ∃ name, error = .neverAssigned name ∧ FirstUnassigned code [value] name := by
  rw [copied, bind_eq_error_of_isOk, operand_eq_error_iff]
  intro operand
  simpa only [bind_isOk_iff, pure_isOk_iff, and_true] using store_isOk hdestination

theorem branch_eq_error_iff {condition : Value} {jump : Instruction Operand} :
    branch (Frame.ofCommands code) condition jump = .error error ↔
      ∃ name, error = .neverAssigned name ∧ FirstUnassigned code [condition] name := by
  rw [branch, bind_pure_eq_error, operand_eq_error_iff]

theorem inlined_eq_error_iff {recipe : Recipe} {destination function : String}
    {arguments : List Value} (hdestination : destination ∈ assigned code)
    (hcount : arguments.length = recipe.arity) :
    inlined (Frame.ofCommands code) recipe destination function arguments = .error error ↔
      ∃ name, error = .neverAssigned name ∧ FirstUnassigned code arguments name := by
  rw [inlined, dif_pos hcount, bind_eq_error_of_isOk, operands_eq_error_iff]
  intro operands
  simpa only [bind_isOk_iff, pure_isOk_iff, and_true] using store_isOk hdestination

/-- The arguments of a call outside the program are looked up from right to left. -/
theorem called_eq_error_iff {destination function : String} {arguments : List Value}
    (hdestination : destination ∈ assigned code) :
    called (Frame.ofCommands code) destination function arguments = .error error ↔
      ∃ name, error = .neverAssigned name ∧ FirstUnassigned code arguments.reverse name := by
  rw [called, bind_eq_error_of_isOk, pushes, bind_pure_eq_error, operands_eq_error_iff]
  intro pushed
  simpa only [bind_isOk_iff, pure_isOk_iff, and_true] using store_isOk hdestination

/-! ## The fault of a command -/

/-- What is reported about a command of the code if it is the first that is broken. -/
inductive Fault (builtins : Builtins) (code : List Command) : Command → EmissionError → Prop
  /-- An operator is given the wrong number of operands, whatever these are. -/
  | count {destination function : String} {arguments : List Value} {recipe : Recipe}
      (hrecipe : builtins.recipe? function = some recipe)
      (hcount : arguments.length ≠ recipe.arity) :
      Fault builtins code (.call destination function arguments)
        (.wrongCount function recipe.arity arguments.length)
  /-- Operands are looked up from left to right. -/
  | operand {command : Command} {name : String} (hcount : HasCount builtins command)
      (hinside : external? builtins command = none)
      (hname : FirstUnassigned code command.operands name) :
      Fault builtins code command (.neverAssigned name)
  /-- The arguments of a call outside the program are looked up from right to left. -/
  | argument {command : Command} {function name : String}
      (houtside : external? builtins command = some function)
      (hname : FirstUnassigned code command.operands.reverse name) :
      Fault builtins code command (.neverAssigned name)

/-- A command gives an operator the wrong number of operands, or reads a variable that no command of
the code assigns. -/
def IsBroken (builtins : Builtins) (code : List Command) (command : Command) : Prop :=
  ¬HasCount builtins command ∨
    ∃ name, .variable name ∈ command.operands ∧ name ∉ assigned code

theorem fault_operand_iff {command : Command} (hcount : HasCount builtins command)
    (hinside : external? builtins command = none) :
    Fault builtins code command error ↔
      ∃ name, error = .neverAssigned name ∧ FirstUnassigned code command.operands name := by
  constructor
  · intro hfault
    cases hfault with
    | count hrecipe hne => exact absurd ((hasCount_call_iff hrecipe).1 hcount) hne
    | operand _ _ hname => exact ⟨_, rfl, hname⟩
    | argument houtside _ => cases hinside.symm.trans houtside
  · rintro ⟨name, rfl, hname⟩
    exact .operand hcount hinside hname

theorem fault_call_of_recipe? {destination function : String} {arguments : List Value}
    {recipe : Recipe} (hrecipe : builtins.recipe? function = some recipe)
    (hne : arguments.length ≠ recipe.arity) :
    Fault builtins code (.call destination function arguments) error ↔
      error = .wrongCount function recipe.arity arguments.length := by
  constructor
  · intro hfault
    cases hfault with
    | count hother _ =>
        cases hrecipe.symm.trans hother
        rfl
    | operand hcount _ _ => exact absurd ((hasCount_call_iff hrecipe).1 hcount) hne
    | argument houtside _ => simp [external?, hrecipe] at houtside
  · rintro rfl
    exact .count hrecipe hne

theorem fault_call_of_external {destination function : String} {arguments : List Value}
    (hrecipe : builtins.recipe? function = none) :
    Fault builtins code (.call destination function arguments) error ↔
      ∃ name, error = .neverAssigned name ∧ FirstUnassigned code arguments.reverse name := by
  have houtside : external? builtins (.call destination function arguments) = some function := by
    simp [external?, hrecipe]
  constructor
  · intro hfault
    cases hfault with
    | count hother _ => cases hrecipe.symm.trans hother
    | operand _ hinside _ => cases houtside.symm.trans hinside
    | argument _ hname => exact ⟨_, rfl, hname⟩
  · rintro ⟨name, rfl, hname⟩
    exact .argument houtside hname

/-- A command of the code is never at fault for its destination. -/
theorem emit_eq_error_iff {command : Command} (hmem : command ∈ code) :
    emit builtins (Frame.ofCommands code) command = .error error ↔
      Fault builtins code command error := by
  cases command with
  | copy destination value =>
      rw [emit, map_eq_error, copied_eq_error_iff (mem_assigned hmem rfl),
        fault_operand_iff (hasCount_of_ne_call (by simp)) rfl, Command.operands]
  | call destination function arguments =>
      have hdestination : destination ∈ assigned code := mem_assigned hmem rfl
      rw [emit, map_eq_error]
      split
      · next recipe hrecipe =>
          have hinside : external? builtins (.call destination function arguments) = none := by
            simp [external?, hrecipe]
          by_cases hlength : arguments.length = recipe.arity
          · rw [inlined_eq_error_iff hdestination hlength,
              fault_operand_iff ((hasCount_call_iff hrecipe).2 hlength) hinside, Command.operands]
          · rw [fault_call_of_recipe? hrecipe hlength, inlined, dif_neg hlength]
            exact ⟨fun h => (Except.error.inj h).symm, fun h => congrArg _ h.symm⟩
      · next hrecipe =>
          rw [called_eq_error_iff hdestination, fault_call_of_external hrecipe]
  | label name =>
      rw [fault_operand_iff (hasCount_of_ne_call (by simp)) rfl]
      simp [emit, Command.operands, not_firstUnassigned_nil, pure, Except.pure]
  | jump target =>
      rw [fault_operand_iff (hasCount_of_ne_call (by simp)) rfl]
      simp [emit, Command.operands, not_firstUnassigned_nil, pure, Except.pure]
  | jumpIf target condition =>
      rw [emit, map_eq_error, branch_eq_error_iff,
        fault_operand_iff (hasCount_of_ne_call (by simp)) rfl, Command.operands]
  | jumpUnless target condition =>
      rw [emit, map_eq_error, branch_eq_error_iff,
        fault_operand_iff (hasCount_of_ne_call (by simp)) rfl, Command.operands]

theorem emit_isOk_iff_not_isBroken {command : Command} (hmem : command ∈ code) :
    (∃ lines, emit builtins (Frame.ofCommands code) command = .ok lines) ↔
      ¬IsBroken builtins code command := by
  simp only [emit_isOk_iff, mem_names_ofCommands, Command.mem_reads, IsBroken, not_or,
    Classical.not_not, not_exists, not_and]
  exact and_congr_right fun _ => and_iff_left fun _ => mem_assigned hmem

/-! ## The fault of code -/

/-- Emission stops at the first command that cannot be emitted. -/
theorem emitAll_eq_error_iff {frame : Frame} {commands : List Command} :
    emitAll builtins frame commands = .error error ↔
      ∃ before command after, commands = before ++ command :: after ∧
        (∀ earlier ∈ before, ∃ lines, emit builtins frame earlier = .ok lines) ∧
          emit builtins frame command = .error error := by
  induction commands with
  | nil => simp [emitAll, pure, Except.pure]
  | cons first rest ih =>
      rw [emitAll, bind_eq_error]
      simp only [bind_pure_eq_error, ih]
      constructor
      · rintro (hfirst | ⟨lines, hlines, before, command, after, rfl, hbefore, hcommand⟩)
        · exact ⟨[], first, rest, rfl, by simp, hfirst⟩
        · refine ⟨first :: before, command, after, rfl, ?_, hcommand⟩
          exact List.forall_mem_cons.2 ⟨⟨lines, hlines⟩, hbefore⟩
      · rintro ⟨before, command, after, hcommands, hbefore, hcommand⟩
        rcases List.cons_eq_append_iff.1 hcommands with ⟨rfl, hcommands⟩ | ⟨front, rfl, rfl⟩
        · cases hcommands
          exact .inl hcommand
        · obtain ⟨⟨lines, hlines⟩, hfront⟩ := List.forall_mem_cons.1 hbefore
          exact .inr ⟨lines, hlines, front, command, after, rfl, hfront, hcommand⟩

theorem ofCommands_eq_error_iff :
    Routine.ofCommands builtins code = .error error ↔
      ∃ before command after, code = before ++ command :: after ∧
        (∀ earlier ∈ before, ¬IsBroken builtins code earlier) ∧
          Fault builtins code command error := by
  rw [Routine.ofCommands, bind_pure_eq_error, emitAll_eq_error_iff]
  refine exists₃_congr fun before command after => and_congr_right fun hcode => ?_
  have hcommand : command ∈ code := hcode ▸ List.mem_append_right before List.mem_cons_self
  have hbefore : ∀ earlier ∈ before, earlier ∈ code :=
    fun earlier hmem => hcode ▸ List.mem_append_left _ hmem
  rw [emit_eq_error_iff hcommand]
  exact and_congr_left fun _ => forall₂_congr fun earlier hmem =>
    emit_isOk_iff_not_isBroken (hbefore earlier hmem)

theorem ofCommands_isOk_iff :
    (∃ routine, Routine.ofCommands builtins code = .ok routine) ↔
      ∀ command ∈ code, ¬IsBroken builtins code command := by
  simp only [Routine.ofCommands, bind_isOk_iff, pure_isOk_iff, and_true, emitAll_isOk_iff]
  exact forall₂_congr fun command hmem => emit_isOk_iff_not_isBroken hmem

theorem Fault.not_mem_assigned {command : Command} {name : String}
    (hfault : Fault builtins code command (.neverAssigned name)) : name ∉ assigned code := by
  cases hfault with
  | operand _ _ hname =>
      obtain ⟨before, after, -, -, hname⟩ := hname
      exact hname
  | argument _ hname =>
      obtain ⟨before, after, -, -, hname⟩ := hname
      exact hname

theorem Fault.isBroken {command : Command} (hfault : Fault builtins code command error) :
    IsBroken builtins code command := by
  cases hfault with
  | count hrecipe hcount => exact .inl fun h => hcount (h _ _ _ _ rfl hrecipe)
  | operand _ _ hname =>
      obtain ⟨before, after, hoperands, -, hname⟩ := hname
      exact .inr ⟨_, by simp [hoperands], hname⟩
  | argument _ hname =>
      obtain ⟨before, after, hoperands, -, hname⟩ := hname
      exact .inr ⟨_, List.mem_reverse.1 (by simp [hoperands]), hname⟩

/-- What is made of code, whether it is broken or not. -/
structure ReportsFirstFault (builtins : Builtins) (code : List Command) : Prop where
  /-- No routine is made of broken code, and of any other code there is one. -/
  fails_iff : (∃ error, Routine.ofCommands builtins code = .error error) ↔
    ∃ command ∈ code, IsBroken builtins code command
  /-- The fault of the first broken command is reported. -/
  reports_iff : ∀ error, Routine.ofCommands builtins code = .error error ↔
    ∃ before command after, code = before ++ command :: after ∧
      (∀ earlier ∈ before, ¬IsBroken builtins code earlier) ∧
        IsBroken builtins code command ∧ Fault builtins code command error
  /-- Every fault is reported as one of the compiler. -/
  internal : ∀ error, Routine.ofCommands builtins code = .error error →
    error.diagnostic = .internal error.message
  /-- No destination is ever reported. -/
  destination : ∀ command ∈ code, ∀ name ∈ command.assigned?,
    Routine.ofCommands builtins code ≠ .error (.neverAssigned name)
  /-- No recipe asks for an operand that it is not given. -/
  filled : ∀ destination function arguments recipe,
    .call destination function arguments ∈ code → builtins.recipe? function = some recipe →
      arguments.length = recipe.arity →
        ∀ operands : List String, operands.length = arguments.length →
          (recipe.lines? operands).isSome

end

/-- Code has no routine exactly if it is broken, and then the first of its faults is reported. -/
theorem reports_first_fault (builtins : Builtins) (code : List Command) :
    ReportsFirstFault builtins code where
  fails_iff := by
    rw [exists_eq_error_iff, ofCommands_isOk_iff]
    simp only [Classical.not_forall, Classical.not_not, exists_prop]
  reports_iff error := by
    rw [ofCommands_eq_error_iff]
    refine exists₃_congr fun before command after => and_congr_right fun _ => ?_
    exact and_congr_right fun _ => ⟨fun hfault => ⟨hfault.isBroken, hfault⟩, And.right⟩
  internal error _ := rfl
  destination command hmem name hname hreported := by
    obtain ⟨before, faulty, after, -, -, hfault⟩ := ofCommands_eq_error_iff.1 hreported
    exact hfault.not_mem_assigned (mem_assigned hmem hname)
  filled destination function arguments recipe _ _ hcount operands hlength :=
    recipe.isSome_lines? (Nat.le_of_eq (hlength.trans hcount).symm)

/-- The operands of the first broken command are looked up from the right, since it calls a function
outside the program. -/
example : Routine.ofCommands .operators
    [.copy "x" (.constant 1),
      .call "y" "f" [.variable "u", .variable "x", .variable "v", .variable "y"],
      .call "z" "+" [.variable "w"]] = .error (.neverAssigned "v") := rfl

end Asm

end WhileCompiler
