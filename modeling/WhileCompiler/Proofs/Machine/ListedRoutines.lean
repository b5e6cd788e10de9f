import WhileCompiler.Proofs.Machine.SoundInstructions

/-!
# Listed routines

Where the lines of a routine are in the memory of the machine, whichever built-in names there are:
the instructions of every command are where the ones before it end, and every label of the code
stands for the beginning of a command.
-/

namespace WhileCompiler

open Asm Ir Text

namespace Machine

/-! ## The lines of code -/

theorem instructionsOf_append (before after : List Line) :
    instructionsOf (before ++ after) = instructionsOf before ++ instructionsOf after :=
  List.filterMap_append

theorem labelsOf_append (before after : List Line) :
    labelsOf (before ++ after) = labelsOf before ++ labelsOf after :=
  List.filterMap_append

theorem labelsOf_map (block : List (Instruction Operand)) :
    labelsOf (block.map .instruction) = [] := by
  rw [labelsOf, List.filterMap_map]
  exact List.filterMap_eq_nil_iff.2 fun _ _ => rfl

/-- A command whose lines are read as what they are. -/
structure IsPrintable (builtins : Builtins) (command : Command) : Prop where
  label : ∀ name ∈ command.label?, isIdentifier name.toList = true
  target : ∀ target ∈ command.target?, isIdentifier target.toList = true
  external : ∀ destination function arguments,
    command = .call destination function arguments → builtins.recipe? function = none →
      IsExternalCall function arguments

section

variable {builtins : Builtins} {code : List Command} {frame : Frame} {lines : List Line}

theorem readable_emit {command : Command} (hcommand : IsPrintable builtins command)
    (hlines : emit builtins frame command = .ok lines) :
    (∀ line ∈ lines, line.IsReadable) ∧ labelsOf lines = command.label?.toList := by
  rcases emit_cases hcommand.target hcommand.external hlines with
    ⟨name, rfl, rfl⟩ | ⟨hlabel, block, rfl, hsound⟩
  · refine ⟨fun line hline => ?_, rfl⟩
    obtain rfl := List.mem_singleton.1 hline
    exact hcommand.label name rfl
  · refine ⟨fun line hline => ?_, ?_⟩
    · obtain ⟨instruction, hinstruction, rfl⟩ := List.mem_map.1 hline
      exact (hsound instruction hinstruction).target
    · rw [labelsOf_map, hlabel]
      rfl

theorem fits_emitAll (hsize : frame.size < 0x80000000)
    (hcode : ∀ command ∈ code, IsPrintable builtins command)
    (hlines : emitAll builtins frame code = .ok lines) :
    ∀ instruction ∈ instructionsOf lines, ∀ operand ∈ instruction.operands, operand.Fits := by
  induction code generalizing lines with
  | nil =>
      obtain rfl := Except.ok.inj hlines
      intro instruction hmem
      cases hmem
  | cons first rest ih =>
      obtain ⟨chunk, others, hchunk, hothers, rfl⟩ := emitAll_cons hlines
      rw [List.forall_mem_cons] at hcode
      rw [instructionsOf_append, List.forall_mem_append]
      refine ⟨?_, ih hcode.2 hothers⟩
      rcases emit_cases hcode.1.target hcode.1.external hchunk with
        ⟨name, rfl, rfl⟩ | ⟨-, block, rfl, hsound⟩
      · intro instruction hmem
        cases hmem
      · rw [instructionsOf_map]
        exact fun instruction hmem => (hsound instruction hmem).fits hsize

/-- Every emitted line is read back, and labels are only those of the code. -/
theorem readable_emitAll (hcode : ∀ command ∈ code, IsPrintable builtins command)
    (hlines : emitAll builtins frame code = .ok lines) :
    (∀ line ∈ lines, line.IsReadable) ∧ labelsOf lines = labels code := by
  induction code generalizing lines with
  | nil =>
      obtain rfl := Except.ok.inj hlines
      exact ⟨by simp, rfl⟩
  | cons first rest ih =>
      obtain ⟨chunk, others, hchunk, hothers, rfl⟩ := emitAll_cons hlines
      have hfirst := readable_emit (hcode first List.mem_cons_self) hchunk
      have hrest := ih (fun command hmem => hcode command (List.mem_cons_of_mem _ hmem)) hothers
      refine ⟨fun line hline => ?_, ?_⟩
      · rcases List.mem_append.1 hline with hline | hline
        · exact hfirst.1 line hline
        · exact hrest.1 line hline
      · rw [labelsOf_append, hfirst.2, hrest.2]
        have happend : labels ([first] ++ rest) = labels [first] ++ labels rest := labels_append _ _
        rw [List.singleton_append] at happend
        rw [happend]
        cases first <;> rfl

end

/-! ## The lines of a program -/

section

variable {builtins : Builtins} {code : List Command} {routine : Routine} {emitted : List Line}

/-- What stands in front of the routine. -/
def front (routine : Routine) : List Line :=
  routine.externals.map (fun name => .directive s!".extern {name}") ++ Routine.shell

theorem labelsOf_front (routine : Routine) : labelsOf (front routine) = ["_start", "main"] := by
  have hexternals (names : List String) :
      labelsOf (names.map fun name => .directive s!".extern {name}") = [] := by
    rw [labelsOf, List.filterMap_map]
    exact List.filterMap_eq_nil_iff.2 fun _ _ => rfl
  rw [front, labelsOf_append, hexternals]
  rfl

theorem instructionsOf_externals (names : List String) :
    instructionsOf (names.map fun name => .directive s!".extern {name}") = [] := by
  rw [instructionsOf, List.filterMap_map]
  exact List.filterMap_eq_nil_iff.2 fun _ _ => rfl

theorem length_instructionsOf_front (routine : Routine) :
    (instructionsOf (front routine)).length = 4 := by
  rw [front, instructionsOf_append, instructionsOf_externals]
  rfl

theorem readable_front (routine : Routine) : ∀ line ∈ front routine, line.IsReadable := by
  intro line hline
  rcases List.mem_append.1 hline with hline | hline
  · obtain ⟨name, -, rfl⟩ := List.mem_map.1 hline
    simp [Line.IsReadable, String.toList_append, toString]
  · simp only [Routine.shell, List.mem_cons, List.not_mem_nil, or_false] at hline
    rcases hline with rfl | rfl | rfl | rfl | rfl | rfl | rfl | rfl | rfl | rfl <;>
      simp only [Line.IsReadable] <;> decide

/-- An instruction without a target whose operands hold no numbers. -/
theorem isSound_of_registers {frame : Frame} {instruction : Instruction Operand}
    (htarget : instruction.target? = none)
    (hoperands : ∀ operand ∈ instruction.operands, ∃ name, operand = .register name) :
    IsSound frame instruction := by
  apply isSound_of_target?_none htarget
  intro _ operand hmem
  obtain ⟨name, rfl⟩ := hoperands operand hmem
  trivial

theorem isSound_prologue (frame : Frame) :
    ∀ instruction ∈ prologue frame, IsSound frame instruction := by
  intro instruction hmem
  simp only [prologue, List.mem_append, List.mem_cons, List.not_mem_nil, or_false] at hmem
  rcases hmem with (rfl | rfl) | hroom
  · exact isSound_of_registers rfl (by simp [Instruction.operands])
  · exact isSound_of_registers rfl (by simp [Instruction.operands])
  · split at hroom
    · cases hroom
    · obtain rfl := List.mem_singleton.1 hroom
      apply isSound_of_target?_none rfl
      intro hsize operand hmem
      rcases List.mem_cons.1 hmem with rfl | hmem
      · simp only [Operand.Fits]
        omega
      · exact List.mem_singleton.1 hmem ▸ trivial

theorem isSound_epilogue (frame : Frame) :
    ∀ instruction ∈ epilogue, IsSound frame instruction := by
  intro instruction hmem
  simp only [epilogue, List.mem_cons, List.not_mem_nil, or_false] at hmem
  rcases hmem with rfl | rfl | rfl <;>
    exact isSound_of_registers rfl (by simp [Instruction.operands])

/-- A routine whose lines were emitted for code and are read as what they are. -/
structure IsListed (builtins : Builtins) (code : List Command) (routine : Routine)
    (emitted : List Line) : Prop where
  printable : ∀ command ∈ code, IsPrintable builtins command
  emits : emitAll builtins (Frame.ofCommands code) code = .ok emitted
  lines : routine.lines = (prologue (Frame.ofCommands code)).map .instruction ++ emitted ++
    epilogue.map .instruction

/-- The memory of the machine after it has loaded a routine. -/
def loaded (routine : Routine) : Program :=
  .ofListing (routine.program.map fun line => indented line.text)

/-- How many instructions commands are emitted as. -/
def extentOf (builtins : Builtins) (frame : Frame) (commands : List Command) : Nat :=
  match emitAll builtins frame commands with
  | .ok lines => (instructionsOf lines).length
  | .error _ => 0

/-- Where the instructions of the command at a position begin. -/
def startOf (builtins : Builtins) (code : List Command) (position : Nat) : Nat :=
  4 + (prologue (Frame.ofCommands code)).length +
    extentOf builtins (Frame.ofCommands code) (code.take position)

theorem extentOf_eq {frame : Frame} {commands : List Command} {lines : List Line}
    (hlines : emitAll builtins frame commands = .ok lines) :
    extentOf builtins frame commands = (instructionsOf lines).length := by
  simp only [extentOf, hlines]

theorem startOf_eq {position : Nat} {before : List Line} (routine : Routine)
    (hbefore : emitAll builtins (Frame.ofCommands code) (code.take position) = .ok before) :
    startOf builtins code position = (instructionsOf (front routine ++
      (prologue (Frame.ofCommands code)).map .instruction ++ before)).length := by
  rw [startOf, extentOf_eq hbefore, instructionsOf_append, instructionsOf_append,
    List.length_append, List.length_append, length_instructionsOf_front, instructionsOf_map]

theorem extentOf_cons {frame : Frame} {first : Command} {rest : List Command}
    {chunk others : List Line} (hchunk : emit builtins frame first = .ok chunk)
    (hothers : emitAll builtins frame rest = .ok others) :
    extentOf builtins frame (first :: rest) =
      (instructionsOf chunk).length + extentOf builtins frame rest := by
  have hboth : emitAll builtins frame (first :: rest) = .ok (chunk ++ others) := by
    rw [emitAll, hchunk, hothers]
    rfl
  rw [extentOf_eq hboth, extentOf_eq hothers, instructionsOf_append, List.length_append]

/-- Every label in emitted lines stands where the instructions of a command begin. -/
theorem exists_extentOf_of_label {frame : Frame} {name : String} {position start : Nat}
    (hcode : ∀ command ∈ code, IsPrintable builtins command)
    (hemitted : emitAll builtins frame code = .ok emitted)
    (hlabel : (name, position) ∈ Program.labelsFrom start (entriesOf emitted)) :
    ∃ index ≤ code.length, position = start + extentOf builtins frame (code.take index) := by
  induction code generalizing emitted start with
  | nil =>
      obtain rfl := Except.ok.inj hemitted
      cases hlabel
  | cons first rest ih =>
      obtain ⟨chunk, others, hchunk, hothers, rfl⟩ := emitAll_cons hemitted
      rw [List.forall_mem_cons] at hcode
      have hreadable := (readable_emit hcode.1 hchunk).1
      rw [entriesOf_append, labelsFrom_append, length_cells_entriesOf hreadable] at hlabel
      rcases List.mem_append.1 hlabel with hfirst | hrest
      · refine ⟨0, Nat.zero_le _, ?_⟩
        rcases emit_cases hcode.1.target hcode.1.external hchunk with
          ⟨other, rfl, rfl⟩ | ⟨-, block, rfl, -⟩
        · rw [entriesOf_cons_label (hcode.1.label other rfl)] at hfirst
          exact congrArg Prod.snd (List.mem_singleton.1 hfirst)
        · have hname := List.mem_map_of_mem (f := Prod.fst) hfirst
          rw [names_labelsFrom hreadable, labelsOf_map] at hname
          cases hname
      · obtain ⟨index, hindex, rfl⟩ := ih hcode.2 hothers hrest
        have hsplit := hothers
        rw [← List.take_append_drop index rest] at hsplit
        obtain ⟨before, after, hbefore, -, -⟩ := emitAll_append hsplit
        refine ⟨index + 1, Nat.succ_le_succ hindex, ?_⟩
        rw [List.take_succ_cons, extentOf_cons hchunk hbefore, Nat.add_assoc]

/-- The lines of a command, between those of the commands before and behind it. -/
theorem emitted_split {frame : Frame} {position : Nat} {command : Command}
    (hemitted : emitAll builtins frame code = .ok emitted)
    (hcommand : code[position]? = some command) :
    ∃ before chunk after, emitAll builtins frame (code.take position) = .ok before ∧
      emitAll builtins frame (code.take (position + 1)) = .ok (before ++ chunk) ∧
      emit builtins frame command = .ok chunk ∧ emitted = before ++ chunk ++ after := by
  have hsplit : emitAll builtins frame (code.take (position + 1) ++ code.drop (position + 1)) =
      .ok emitted := by
    rwa [List.take_append_drop]
  obtain ⟨first, after, hfirst, -, rfl⟩ := emitAll_append hsplit
  have htake : code.take (position + 1) = code.take position ++ [command] := by
    rw [List.take_add_one, hcommand]
    rfl
  have hsplit := hfirst
  rw [htake] at hsplit
  obtain ⟨before, last, hbefore, hlast, rfl⟩ := emitAll_append hsplit
  obtain ⟨chunk, others, hchunk, hothers, rfl⟩ := emitAll_cons hlast
  obtain rfl := Except.ok.inj hothers
  rw [List.append_nil] at hfirst
  exact ⟨before, chunk, after, hbefore, hfirst, hchunk, by rw [List.append_nil]⟩

namespace IsListed

theorem program_eq (hroutine : IsListed builtins code routine emitted) :
    routine.program = front routine ++ (prologue (Frame.ofCommands code)).map .instruction ++
      emitted ++ epilogue.map .instruction := by
  have hprogram : routine.program = front routine ++ routine.lines := rfl
  rw [hprogram, hroutine.lines]
  simp only [List.append_assoc]

theorem readable (hroutine : IsListed builtins code routine emitted) :
    (∀ line ∈ routine.program, line.IsReadable) ∧
      labelsOf routine.program = "_start" :: "main" :: labels code := by
  have hinner := readable_emitAll hroutine.printable hroutine.emits
  rw [hroutine.program_eq]
  refine ⟨fun line hline => ?_, ?_⟩
  · simp only [List.mem_append, List.mem_map] at hline
    rcases hline with ((hline | ⟨instruction, hmem, rfl⟩) | hline) | ⟨instruction, hmem, rfl⟩
    · exact readable_front routine line hline
    · exact (isSound_prologue _ instruction hmem).target
    · exact hinner.1 line hline
    · exact (isSound_epilogue (Frame.ofCommands code) instruction hmem).target
  · simp only [labelsOf_append, labelsOf_front, labelsOf_map, hinner.2, List.append_nil]
    rfl

/-- A block of instructions with numbers that fit is in memory where the instructions in front of
it end. -/
theorem loaded_block (hroutine : IsListed builtins code routine emitted)
    {before after : List Line} {block : List (Instruction Operand)}
    (hblock : routine.program = before ++ block.map .instruction ++ after)
    (hfits : ∀ instruction ∈ block, ∀ operand ∈ instruction.operands, operand.Fits) :
    Loaded (loaded routine) (instructionsOf before).length block :=
  Machine.loaded_block hroutine.readable.1 hblock hfits

/-- The instructions of a command stand in the program from its start up to that of the next. -/
theorem loaded_command (hroutine : IsListed builtins code routine emitted)
    (hsize : (Frame.ofCommands code).size < 0x80000000) {position : Nat} {command : Command}
    (hcommand : code[position]? = some command) :
    ∃ lines, emit builtins (Frame.ofCommands code) command = .ok lines ∧
      Loaded (loaded routine) (startOf builtins code position) (instructionsOf lines) ∧
      startOf builtins code (position + 1) =
        startOf builtins code position + (instructionsOf lines).length := by
  obtain ⟨before, chunk, after, hbefore, hthrough, hchunk, rfl⟩ :=
    emitted_split hroutine.emits hcommand
  refine ⟨chunk, hchunk, ?_, ?_⟩
  · have hprintable := hroutine.printable command (List.mem_of_getElem? hcommand)
    rcases emit_cases hprintable.target hprintable.external hchunk with
      ⟨name, rfl, rfl⟩ | ⟨-, block, rfl, hsound⟩
    · intro index instruction hinstruction
      cases hinstruction
    · have hblock : routine.program = (front routine ++
          (prologue (Frame.ofCommands code)).map .instruction ++ before) ++
          block.map .instruction ++ (after ++ epilogue.map .instruction) := by
        rw [hroutine.program_eq]
        simp only [List.append_assoc]
      rw [startOf_eq routine hbefore, instructionsOf_map]
      apply hroutine.loaded_block hblock
      exact fun instruction hmem => (hsound instruction hmem).fits hsize
  · rw [startOf, startOf, extentOf_eq hbefore, extentOf_eq hthrough, instructionsOf_append,
      List.length_append]
    omega

theorem loaded_prologue (hroutine : IsListed builtins code routine emitted)
    (hsize : (Frame.ofCommands code).size < 0x80000000) :
    Loaded (loaded routine) 4 (prologue (Frame.ofCommands code)) := by
  have hblock : routine.program = front routine ++
      (prologue (Frame.ofCommands code)).map .instruction ++
      (emitted ++ epilogue.map .instruction) := by
    rw [hroutine.program_eq]
    simp only [List.append_assoc]
  have hloaded := hroutine.loaded_block hblock fun instruction hmem =>
    (isSound_prologue _ instruction hmem).fits hsize
  rwa [length_instructionsOf_front] at hloaded

theorem loaded_epilogue (hroutine : IsListed builtins code routine emitted) :
    Loaded (loaded routine) (startOf builtins code code.length) epilogue := by
  have hblock : routine.program = (front routine ++
      (prologue (Frame.ofCommands code)).map .instruction ++ emitted) ++
      epilogue.map .instruction ++ [] := by
    rw [hroutine.program_eq, List.append_nil]
  have hbefore : emitAll builtins (Frame.ofCommands code) (code.take code.length) =
      .ok emitted := by
    rw [List.take_length]
    exact hroutine.emits
  rw [startOf_eq routine hbefore]
  exact hroutine.loaded_block hblock (by decide)

/-- The instructions of all commands stand one behind the other, with the end of the routine
behind them. -/
theorem loaded_code (hroutine : IsListed builtins code routine emitted)
    (hsize : (Frame.ofCommands code).size < 0x80000000) :
    Loaded (loaded routine) (startOf builtins code 0) (instructionsOf emitted ++ epilogue) := by
  have hlines : routine.program = (front routine ++
      (prologue (Frame.ofCommands code)).map .instruction) ++
      (emitted ++ epilogue.map .instruction) ++ [] := by
    rw [hroutine.program_eq, List.append_nil, List.append_assoc]
  have hinner : instructionsOf (emitted ++ epilogue.map .instruction) =
      instructionsOf emitted ++ epilogue := by
    rw [instructionsOf_append, instructionsOf_map]
  have hloaded := loaded_lines hroutine.readable.1 hlines (by
    rw [hinner, List.forall_mem_append]
    exact ⟨fits_emitAll hsize hroutine.printable hroutine.emits, by decide⟩)
  rwa [hinner, instructionsOf_append, instructionsOf_map, List.length_append,
    length_instructionsOf_front] at hloaded

/-! ## Labels -/

/-- What a label of the code stands for is the beginning of a command. -/
theorem exists_startOf (hroutine : IsListed builtins code routine emitted) {name : String}
    {position : Nat} (hposition : (loaded routine).position? name = some position)
    (hname : name ∉ shellSymbols) :
    ∃ index ≤ code.length, position = startOf builtins code index := by
  have hlabel := mem_labelsFrom_of_position? hposition
  have hopening : ∀ line ∈ front routine ++ (prologue (Frame.ofCommands code)).map .instruction,
      line.IsReadable := by
    intro line hline
    apply hroutine.readable.1
    rw [hroutine.program_eq]
    exact List.mem_append_left _ (List.mem_append_left _ hline)
  rw [hroutine.program_eq, entriesOf_append, entriesOf_append, labelsFrom_append,
    labelsFrom_append, length_cells_entriesOf hopening] at hlabel
  simp only [List.mem_append] at hlabel
  rcases hlabel with (hfront | hinner) | hclosing
  · have hmem := List.mem_map_of_mem (f := Prod.fst) hfront
    rw [names_labelsFrom hopening, labelsOf_append, labelsOf_front, labelsOf_map] at hmem
    exact absurd hmem hname
  · obtain ⟨index, hindex, rfl⟩ :=
      exists_extentOf_of_label hroutine.printable hroutine.emits hinner
    refine ⟨index, hindex, ?_⟩
    rw [instructionsOf_append, instructionsOf_map, List.length_append,
      length_instructionsOf_front, Nat.zero_add, startOf]
  · have hmem := List.mem_map_of_mem (f := Prod.fst) hclosing
    rw [names_labelsFrom (isReadable_map (by decide)), labelsOf_map] at hmem
    cases hmem

/-- A label stands for the place of its last definition. -/
theorem position?_label (hroutine : IsListed builtins code routine emitted) {name : String}
    {before after : List Line} (hlabel : routine.program = before ++ .label name :: after)
    (hlast : name ∉ labelsOf after) :
    (loaded routine).position? name = some (instructionsOf before).length :=
  position?_of_label hroutine.readable.1 hlabel hlast

theorem position?_of_not_mem (hroutine : IsListed builtins code routine emitted) {name : String}
    (hname : name ∉ shellSymbols) (hlabel : name ∉ labels code) :
    (loaded routine).position? name = none := by
  refine Machine.position?_of_not_mem hroutine.readable.1 ?_
  rw [hroutine.readable.2]
  simp only [shellSymbols, List.mem_cons, List.not_mem_nil, or_false, not_or] at hname
  simpa using ⟨hname.1, hname.2, hlabel⟩

end IsListed

/-! ## The shell -/

/-- What stands in front of the label at which the program starts. -/
def preamble (routine : Routine) : List Line :=
  routine.externals.map (fun name => .directive s!".extern {name}") ++ Routine.shell.take 3

theorem length_instructionsOf_preamble (routine : Routine) :
    (instructionsOf (preamble routine)).length = 0 := by
  rw [preamble, instructionsOf_append, instructionsOf_externals]
  rfl

theorem front_eq (routine : Routine) :
    front routine = preamble routine ++ .label "_start" :: shellBlock.map .instruction ++
      [.directive ".type main, @function", .label "main"] := by
  rw [front, preamble, List.append_assoc, List.append_assoc]
  rfl

namespace IsListed

theorem labelsOf_body (hroutine : IsListed builtins code routine emitted) :
    labelsOf ((prologue (Frame.ofCommands code)).map .instruction ++ emitted ++
      epilogue.map .instruction) = labels code := by
  have hinner := readable_emitAll hroutine.printable hroutine.emits
  simp only [labelsOf_append, labelsOf_map, hinner.2, List.append_nil, List.nil_append]

/-- A label that is defined once stands for the place where its command begins. -/
theorem position?_command (hroutine : IsListed builtins code routine emitted)
    (hnodup : (labels code).Nodup) {position : Nat} {name : String}
    (hcommand : code[position]? = some (.label name)) :
    (loaded routine).position? name = some (startOf builtins code position) := by
  obtain ⟨before, chunk, after, hbefore, -, hchunk, rfl⟩ := emitted_split hroutine.emits hcommand
  obtain rfl := Except.ok.inj hchunk
  have hlabel : routine.program = (front routine ++
      (prologue (Frame.ofCommands code)).map .instruction ++ before) ++
      .label name :: (after ++ epilogue.map .instruction) := by
    rw [hroutine.program_eq]
    simp only [List.append_assoc, List.cons_append, List.nil_append]
  rw [startOf_eq routine hbefore]
  refine hroutine.position?_label hlabel fun hmem => ?_
  -- The label is defined only once, so that no later definition can count instead.
  have hlabels := hroutine.labelsOf_body
  simp only [labelsOf_append, labelsOf_map, List.nil_append, List.append_nil] at hlabels hmem
  rw [← hlabels] at hnodup
  exact (List.nodup_append.1 hnodup).2.2 name
    (List.mem_append_right _ (List.mem_singleton_self name)) name hmem rfl

theorem loaded_shell (hroutine : IsListed builtins code routine emitted) :
    Loaded (loaded routine) 0 shellBlock := by
  have hblock : routine.program = (preamble routine ++ [.label "_start"]) ++
      shellBlock.map .instruction ++ ([.directive ".type main, @function", .label "main"] ++
        ((prologue (Frame.ofCommands code)).map .instruction ++ emitted ++
          epilogue.map .instruction)) := by
    rw [hroutine.program_eq, front_eq]
    simp only [List.append_assoc, List.cons_append, List.nil_append]
  have hloaded := hroutine.loaded_block hblock (by decide)
  rw [instructionsOf_append, List.length_append, length_instructionsOf_preamble] at hloaded
  exact hloaded

theorem position?_start (hroutine : IsListed builtins code routine emitted)
    (hstart : "_start" ∉ labels code) : (loaded routine).position? "_start" = some 0 := by
  have hlabel : routine.program = preamble routine ++ .label "_start" ::
      (shellBlock.map .instruction ++ ([.directive ".type main, @function", .label "main"] ++
        ((prologue (Frame.ofCommands code)).map .instruction ++ emitted ++
          epilogue.map .instruction))) := by
    rw [hroutine.program_eq, front_eq]
    simp only [List.append_assoc, List.cons_append, List.nil_append]
  rw [hroutine.position?_label hlabel, length_instructionsOf_preamble]
  rw [labelsOf_append, labelsOf_append, hroutine.labelsOf_body, labelsOf_map]
  intro hmem
  rcases List.mem_cons.1 hmem with hmain | hmem
  · exact absurd hmain (by decide)
  · exact hstart hmem

theorem position?_main (hroutine : IsListed builtins code routine emitted)
    (hmain : "main" ∉ labels code) : (loaded routine).position? "main" = some 4 := by
  have hlabel : routine.program = (preamble routine ++ .label "_start" ::
      (shellBlock.map .instruction ++ [.directive ".type main, @function"])) ++ .label "main" ::
        ((prologue (Frame.ofCommands code)).map .instruction ++ emitted ++
          epilogue.map .instruction) := by
    rw [hroutine.program_eq, front_eq]
    simp only [List.append_assoc, List.cons_append, List.nil_append]
  rw [hroutine.position?_label hlabel (hroutine.labelsOf_body ▸ hmain), instructionsOf_append,
    List.length_append, length_instructionsOf_preamble]
  rfl

theorem hasShell (hroutine : IsListed builtins code routine emitted)
    (hlabels : ∀ name ∈ labels code, name ∉ shellSymbols) : HasShell (loaded routine) := by
  refine ⟨hroutine.position?_start fun hmem => hlabels _ hmem (by decide),
    hroutine.position?_main fun hmem => hlabels _ hmem (by decide), hroutine.loaded_shell, ?_⟩
  have hblock : ∃ after, routine.program = front routine ++
      [Instruction.push (.register .ebp),
        .move (.register .esp) (.register .ebp)].map .instruction ++ after := by
    rw [hroutine.program_eq, prologue, List.map_append]
    simp only [List.append_assoc]
    exact ⟨_, rfl⟩
  obtain ⟨after, hblock⟩ := hblock
  have hloaded := hroutine.loaded_block hblock (by decide)
  rwa [length_instructionsOf_front] at hloaded

end IsListed

end

end Machine

end WhileCompiler
