import WhileCompiler.Proofs.Asm.Symbols
import WhileCompiler.Proofs.Ir.ForwardJumps
import WhileCompiler.Proofs.StackDiscipline

/-!
# Straight runs

A program whose jumps all lead forward is never at one place twice.  The one step back is the return
from the routine, and it leads to the shell, whose rest is all that remains to be done.  So such a
program ends within as many steps as it has instructions.
-/

namespace WhileCompiler

open Asm Ir Text

namespace Machine

variable {program : Program} {start state last : State} {instruction : Instruction Operand}
  {count more : Nat}

/-! ## Where a step leads -/

theorem position_write {destination : Operand} {value : Int32}
    (hwrite : state.write destination value = .ok last) : last.position = state.position := by
  cases destination with
  | constant constant => cases hwrite
  | register register | memory displacement base =>
      obtain rfl := Except.ok.inj hwrite
      rfl

theorem position_callHost {symbol : String} (hcall : state.callHost symbol = .ok last) :
    last.position = state.position := by
  rcases callHost_cases hcall with ⟨-, rfl⟩ | ⟨-, value, rest, -, rfl⟩
  · rfl
  · rfl

/-- An instruction that does not return leads to the next one or to its target. -/
theorem Leads.position (hleads : Leads program state instruction last) :
    last.position = state.position ∨ instruction = .ret ∨
      ∃ target ∈ instruction.target?, program.position? target = some last.position := by
  cases hleads with
  | computes _ hposition _ => exact .inl hposition
  | writes _ _ hwrite => exact .inl (position_write hwrite)
  | pops hwrite =>
      exact .inl (show last.position = state.pop.2.position from position_write hwrite)
  | pushes | passes _ _ => exact .inl rfl
  | @jumps _ label position hjump hposition =>
      have htarget : instruction.target? = some label := by
        simp only [List.mem_cons, List.not_mem_nil, or_false] at hjump
        rcases hjump with rfl | rfl | rfl <;> rfl
      exact .inr (.inr ⟨label, htarget, hposition⟩)
  | @calls target position hposition => exact .inr (.inr ⟨target, rfl, hposition⟩)
  | callsHost _ hcall => exact .inl (position_callHost hcall)
  | returns => exact .inr (.inl rfl)

/-! ## Faults -/

theorem ofExcept_ne_stepLimit {result : Except Fault State} (hresult : result ≠ .error .stepLimit) :
    Progress.ofExcept result ≠ .failed .stepLimit := by
  cases result with
  | ok state => exact nofun
  | error fault =>
      intro hfailed
      exact hresult (congrArg _ (Progress.failed.inj hfailed))

theorem write_ne_stepLimit (destination : Operand) (value : Int32) :
    state.write destination value ≠ .error .stepLimit := by
  cases destination <;> exact nofun

theorem divide_ne_stepLimit (divisor : Int32) : state.divide divisor ≠ .error .stepLimit := by
  rw [State.divide]
  split
  · simp
  · dsimp only
    split <;> simp

theorem jump_ne_stepLimit (label : String) : state.jump program label ≠ .error .stepLimit := by
  rw [State.jump]
  split <;> simp

theorem call_ne_stepLimit (target : String) : state.call program target ≠ .error .stepLimit := by
  rw [State.call, State.callHost]
  split
  · simp
  · split
    · simp
    · split
      · split <;> simp
      · simp

/-- No instruction claims that the limit on steps has been reached. -/
theorem execute_ne_stepLimit : state.execute program instruction ≠ .failed .stepLimit := by
  cases instruction with
  | move source destination | combine operation source destination | negate destination
  | pop destination => exact ofExcept_ne_stepLimit (write_ne_stepLimit _ _)
  | divide divisor => exact ofExcept_ne_stepLimit (divide_ne_stepLimit _)
  | moveIf condition source destination =>
      rw [State.execute]
      split
      · exact ofExcept_ne_stepLimit (write_ne_stepLimit _ _)
      · simp
  | jump target => exact ofExcept_ne_stepLimit (jump_ne_stepLimit _)
  | jumpIfEqual target | jumpIfNotEqual target =>
      rw [State.execute]
      split
      · exact ofExcept_ne_stepLimit (jump_ne_stepLimit _)
      · simp
  | call target => exact ofExcept_ne_stepLimit (call_ne_stepLimit _)
  | extendSign | compare source destination | push source | ret => simp [State.execute]
  | systemCall =>
      rw [State.execute]
      split <;> simp

/-! ## Programs that go forward -/

/-- A program behind a shell that calls it, all of whose lines could be read, and whose instructions
go only to later ones. -/
structure IsForward (program : Program) : Prop where
  shell : Loaded program 0 shellBlock
  instructions : ∀ (position : Nat) (cell : Cell), program.code[position]? = some cell →
    ∃ instruction, cell = .run instruction
  targets : ∀ (position place : Nat) (instruction : Instruction Operand) (target : String),
    program.code[position]? = some (.run instruction) → target ∈ instruction.target? →
      program.position? target = some place → position < place

/-- How many places a program has come to before a position, if it comes to all of them.  The rest
of the shell is behind the routine. -/
def Program.rank (program : Program) (position : Nat) : Nat :=
  if 0 < position ∧ position < 4 then program.code.size + position - 4 else position - 3

/-- Steps that return go to the shell. -/
def ReturnsToShell (program : Program) (start : State) : Prop :=
  ∀ count state last, Runs program count start state →
    program.code[state.position]? = some (.run .ret) → state.step program = .running last →
      last.position = 1

/-- A run that never comes to one place twice. -/
def IsStraight (program : Program) (start : State) : Prop :=
  ∀ first second earlier later, first < second → Runs program first start earlier →
    Runs program second start later → earlier.position ≠ later.position

theorem Runs.exists_last (hruns : Runs program (count + 1) state last) :
    ∃ middle, Runs program count state middle ∧ middle.step program = .running last := by
  induction count generalizing state with
  | zero =>
      obtain _ | ⟨hstep, ⟨⟩⟩ := hruns
      exact ⟨state, .refl, hstep⟩
  | succ count ih =>
      obtain _ | ⟨hstep, hrest⟩ := hruns
      obtain ⟨middle, hmiddle, hlast⟩ := ih hrest
      exact ⟨middle, .step hstep hmiddle, hlast⟩

namespace IsForward

variable (hprogram : IsForward program)

include hprogram

theorem four_le_size : 4 ≤ program.code.size := by
  obtain ⟨hlt, -⟩ := Array.getElem?_eq_some_iff.1 (hprogram.shell 3 .systemCall rfl)
  exact hlt

/-- Behind the call, the shell neither goes anywhere nor returns. -/
theorem shell_plain {position : Nat} (hpos : 0 < position) (hlt : position < 4)
    (hcode : program.code[position]? = some (.run instruction)) :
    instruction.target? = none ∧ instruction ≠ .ret := by
  have hcurrent {other : Instruction Operand} (hother : shellBlock[position]? = some other) :
      instruction = other := by
    have hloaded := hprogram.shell position other hother
    rw [Nat.zero_add, hcode] at hloaded
    exact Cell.run.inj (Option.some.inj hloaded)
  obtain rfl | rfl | rfl : position = 1 ∨ position = 2 ∨ position = 3 := by omega
  · exact hcurrent rfl ▸ ⟨rfl, nofun⟩
  · exact hcurrent rfl ▸ ⟨rfl, nofun⟩
  · exact hcurrent rfl ▸ ⟨rfl, nofun⟩

/-- The last instruction of the shell is not followed by another one. -/
theorem position_ne_three (hstep : state.step program = .running last) : state.position ≠ 3 := by
  intro hposition
  have hloaded : Loaded program state.position [.systemCall] := hposition ▸ hprogram.shell.drop 3
  rw [hloaded.step, State.execute] at hstep
  split at hstep <;> cases hstep

theorem exists_instruction (hstep : state.step program = .running last) :
    ∃ instruction, program.code[state.position]? = some (.run instruction) ∧
      Leads program state.next instruction last := by
  rcases step_cases hstep with hrun | ⟨condition, reason, hcode, -⟩
  · exact hrun
  · obtain ⟨instruction, hcell⟩ := hprogram.instructions _ _ hcode
    cases hcell

theorem position_lt_size (hstep : state.step program = .running last) :
    state.position < program.code.size := by
  obtain ⟨instruction, hcode, -⟩ := hprogram.exists_instruction hstep
  exact (Array.getElem?_eq_some_iff.1 hcode).1

/-- With each step the program has come to more places. -/
theorem rank_lt (hstep : state.step program = .running last)
    (hreturn : program.code[state.position]? = some (.run .ret) → last.position = 1) :
    program.rank state.position < program.rank last.position := by
  have hsize := hprogram.four_le_size
  have hlt := hprogram.position_lt_size hstep
  have hend := hprogram.position_ne_three hstep
  obtain ⟨instruction, hcode, hleads⟩ := hprogram.exists_instruction hstep
  -- Straight on, back to the shell or forward to a target: each raises the rank.
  rcases hleads.position with hnext | rfl | ⟨target, htarget, hplace⟩
  · have hposition : last.position = state.position + 1 := hnext
    rw [hposition, Program.rank, Program.rank]
    split <;> split <;> omega
  · have hshell : ¬ (0 < state.position ∧ state.position < 4) :=
      fun hwithin => (hprogram.shell_plain hwithin.1 hwithin.2 hcode).2 rfl
    rw [hreturn hcode, Program.rank, Program.rank, if_neg hshell, if_pos (by omega)]
    omega
  · have hshell : ¬ (0 < state.position ∧ state.position < 4) := by
      intro hwithin
      rw [(hprogram.shell_plain hwithin.1 hwithin.2 hcode).1] at htarget
      cases htarget
    have hlater := hprogram.targets _ _ _ _ hcode htarget hplace
    rw [Program.rank, Program.rank, if_neg hshell]
    split <;> omega

/-- A program that can take another step has not come to its last place. -/
theorem rank_add_two_le (hstep : state.step program = .running last) :
    program.rank state.position + 2 ≤ program.code.size := by
  have hsize := hprogram.four_le_size
  have hlt := hprogram.position_lt_size hstep
  have hend := hprogram.position_ne_three hstep
  rw [Program.rank]
  split <;> omega

theorem step_ne_stepLimit (state : State) : state.step program ≠ .failed .stepLimit := by
  rw [State.step]
  split
  · simp
  · exact execute_ne_stepLimit
  · next reason hcode =>
      obtain ⟨instruction, hcell⟩ := hprogram.instructions _ _ hcode
      cases hcell
  · next condition reason hcode =>
      obtain ⟨instruction, hcell⟩ := hprogram.instructions _ _ hcode
      cases hcell

/-- A run that is cut off has taken all the steps that it may take. -/
theorem runs_of_stepLimit {limit : Nat} (hcut : state.run program limit = .error .stepLimit) :
    ∃ last, Runs program limit state last := by
  induction limit generalizing state with
  | zero => exact ⟨state, .refl⟩
  | succ limit ih =>
      rw [State.run] at hcut
      split at hcut
      · next next hstep =>
          obtain ⟨last, hruns⟩ := ih hcut
          exact ⟨last, .step hstep hruns⟩
      · cases hcut
      · next fault hstep =>
          obtain rfl := Except.error.inj hcut
          exact absurd hstep (hprogram.step_ne_stepLimit state)

variable (hreturns : ReturnsToShell program start)

include hreturns

theorem rank_runs (hstart : Runs program count start state) (hruns : Runs program more state last) :
    program.rank state.position + more ≤ program.rank last.position := by
  induction hruns generalizing count with
  | refl => exact Nat.le_refl _
  | step hstep _ ih =>
      have hlt := hprogram.rank_lt hstep fun hret => hreturns _ _ _ hstart hret hstep
      have hrest := ih (hstart.trans (.single hstep))
      omega

/-- A program that goes forward is never at one place twice. -/
theorem isStraight : IsStraight program start := by
  intro first second earlier later hlt hfirst hsecond hsame
  obtain ⟨more, rfl⟩ := Nat.exists_eq_add_of_le (Nat.le_of_lt hlt)
  have hranks := hprogram.rank_runs hreturns hfirst (hfirst.continue hsecond)
  rw [hsame] at hranks
  omega

/-- A program that goes forward ends within as many steps as it has instructions. -/
theorem run_ne_stepLimit {limit : Nat} (hlimit : program.code.size ≤ limit) :
    start.run program limit ≠ .error .stepLimit := by
  intro hcut
  obtain ⟨last, hruns⟩ := hprogram.runs_of_stepLimit hcut
  have hsize := hprogram.four_le_size
  obtain ⟨count, rfl⟩ : ∃ count, limit = count + 1 := ⟨limit - 1, by omega⟩
  obtain ⟨middle, hmiddle, hstep⟩ := hruns.exists_last
  have hranks := hprogram.rank_runs hreturns .refl hmiddle
  have hplaces := hprogram.rank_add_two_le hstep
  omega

end IsForward

/-! ## Routines whose code jumps forward -/

section

variable {builtins : Builtins} {code : List Command} {routine : Routine} {emitted : List Line}

theorem instructionsOf_front (routine : Routine) :
    instructionsOf (front routine) = shellBlock := by
  rw [front, instructionsOf_append, instructionsOf_externals]
  rfl

theorem HasOwnNames.not_mem_labels (hnames : HasOwnNames builtins code) {name : String}
    (hname : name ∈ shellSymbols) : name ∉ labels code :=
  fun hmem => (hnames.labelled name (List.mem_append_left _ hmem)).2 hname

/-- What a routine does first neither goes anywhere nor returns. -/
theorem prologue_plain {frame : Frame} (hmem : instruction ∈ prologue frame) :
    instruction.target? = none ∧ instruction ≠ .ret := by
  rcases List.mem_append.1 hmem with hmem | hmem
  · simp only [List.mem_cons, List.not_mem_nil, or_false] at hmem
    rcases hmem with rfl | rfl
    · exact ⟨rfl, by simp⟩
    · exact ⟨rfl, by simp⟩
  · split at hmem
    · cases hmem
    · obtain rfl := List.mem_singleton.1 hmem
      exact ⟨rfl, by simp⟩

/-- What a line of code is emitted for begins before the line and ends behind it. -/
theorem exists_command_of_getElem? {frame : Frame} {offset : Nat}
    (hemitted : emitAll builtins frame code = .ok emitted)
    (hinstruction : (instructionsOf emitted)[offset]? = some instruction) :
    ∃ (index : Nat) (command : Command) (chunk : List Line), code[index]? = some command ∧
      emit builtins frame command = .ok chunk ∧ instruction ∈ instructionsOf chunk ∧
      offset < extentOf builtins frame (code.take (index + 1)) := by
  induction code generalizing emitted offset with
  | nil =>
      obtain rfl := Except.ok.inj hemitted
      cases hinstruction
  | cons first rest ih =>
      obtain ⟨chunk, others, hchunk, hothers, rfl⟩ := emitAll_cons hemitted
      rw [instructionsOf_append] at hinstruction
      by_cases hlt : offset < (instructionsOf chunk).length
      · rw [List.getElem?_append_left hlt] at hinstruction
        refine ⟨0, first, chunk, rfl, hchunk, List.mem_of_getElem? hinstruction, ?_⟩
        rw [List.take_succ_cons, List.take_zero, extentOf_cons hchunk rfl]
        omega
      · rw [List.getElem?_append_right (Nat.le_of_not_lt hlt)] at hinstruction
        obtain ⟨index, command, lines, hcommand, hlines, hmem, hbound⟩ := ih hothers hinstruction
        refine ⟨index + 1, command, lines, hcommand, hlines, hmem, ?_⟩
        rw [← List.take_append_drop (index + 1) rest] at hothers
        obtain ⟨before, -, hbefore, -, -⟩ := emitAll_append hothers
        rw [List.take_succ_cons, extentOf_cons hchunk hbefore]
        omega

theorem extentOf_take_le {frame : Frame} (hemitted : emitAll builtins frame code = .ok emitted)
    {first second : Nat} (hle : first ≤ second) :
    extentOf builtins frame (code.take first) ≤ extentOf builtins frame (code.take second) := by
  rw [← List.take_append_drop second code] at hemitted
  obtain ⟨lines, -, hlines, -, -⟩ := emitAll_append hemitted
  have hsplit := hlines
  rw [← List.take_append_drop first (code.take second), List.take_take, Nat.min_eq_left hle]
    at hsplit
  obtain ⟨before, after, hbefore, -, rfl⟩ := emitAll_append hsplit
  rw [extentOf_eq hbefore, extentOf_eq hlines, instructionsOf_append, List.length_append]
  exact Nat.le_add_right _ _

namespace IsListed

variable (hroutine : IsListed builtins code routine emitted)

include hroutine

theorem instructionsOf_program :
    instructionsOf routine.program = shellBlock ++ prologue (Frame.ofCommands code) ++
      instructionsOf emitted ++ epilogue := by
  rw [hroutine.program_eq]
  simp only [instructionsOf_append, instructionsOf_front, instructionsOf_map]

/-- The memory holds the instructions of the program and nothing else. -/
theorem code_eq (hsize : (Frame.ofCommands code).size < 0x80000000) :
    (loaded routine).code = ((instructionsOf routine.program).map Cell.run).toArray := by
  rw [loaded, ofListing_eq, Program.ofEntries, cells_entriesOf hroutine.readable.1]
  rw [hroutine.instructionsOf_program]
  simp only [List.forall_mem_append]
  refine ⟨⟨⟨by decide, ?_⟩, fits_emitAll hsize hroutine.printable hroutine.emits⟩, by decide⟩
  exact fun instruction hmem => (isSound_prologue _ instruction hmem).fits hsize

/-- Instructions that go somewhere are the call of the routine and instructions of its commands. -/
theorem calls_or_emitted {position : Nat} {target : String}
    (hinstruction : (instructionsOf routine.program)[position]? = some instruction)
    (htarget : target ∈ instruction.target?) :
    (position = 0 ∧ target = "main") ∨ ∃ offset, position = startOf builtins code 0 + offset ∧
      (instructionsOf emitted)[offset]? = some instruction := by
  have hplain {index : Nat} (block : List (Instruction Operand))
      (hblock : ∀ instruction ∈ block, instruction.target? = none)
      (hindex : block[index]? = some instruction) : False := by
    rw [hblock instruction (List.mem_of_getElem? hindex)] at htarget
    cases htarget
  have hstart : startOf builtins code 0 =
      (shellBlock ++ prologue (Frame.ofCommands code)).length := by
    rw [List.length_append]
    rfl
  rw [hroutine.instructionsOf_program, List.getElem?_append] at hinstruction
  split at hinstruction
  · rw [List.getElem?_append] at hinstruction
    split at hinstruction
    · rw [List.getElem?_append] at hinstruction
      split at hinstruction
      · cases position with
        | zero =>
            obtain rfl := Option.some.inj hinstruction
            exact .inl ⟨rfl, (Option.some.inj htarget).symm⟩
        | succ position => exact (hplain shellBlock.tail (by decide) hinstruction).elim
      · exact (hplain _ (fun _ hmem => (prologue_plain hmem).1) hinstruction).elim
    · exact .inr ⟨_, by omega, hinstruction⟩
  · exact (hplain _ (by decide) hinstruction).elim

/-- The instructions of a command go to the labels that the command goes to. -/
theorem isForward (hnames : HasOwnNames builtins code)
    (hsize : (Frame.ofCommands code).size < 0x80000000) (hnodup : (labels code).Nodup)
    (hforward : JumpsForward code) : IsForward (loaded routine) where
  shell := hroutine.loaded_shell
  instructions := by
    intro position cell hcode
    rw [hroutine.code_eq hsize, List.getElem?_toArray, List.getElem?_map] at hcode
    obtain ⟨instruction, -, rfl⟩ := Option.map_eq_some_iff.1 hcode
    exact ⟨instruction, rfl⟩
  targets := by
    intro position place instruction target hcode htarget hplace
    rw [hroutine.code_eq hsize, List.getElem?_toArray, List.getElem?_map] at hcode
    obtain ⟨_, hinstruction, ⟨⟩⟩ := Option.map_eq_some_iff.1 hcode
    rcases hroutine.calls_or_emitted hinstruction htarget with
      ⟨rfl, rfl⟩ | ⟨offset, rfl, hoffset⟩
    · rw [hroutine.position?_main (hnames.not_mem_labels (by decide))] at hplace
      exact Option.some.inj hplace ▸ Nat.succ_pos 3
    · obtain ⟨index, command, chunk, hcommand, hchunk, hmem, hbound⟩ :=
        exists_command_of_getElem? hroutine.emits hoffset
      rcases target_of_mem_emit hchunk hmem htarget with hlabel | hexternal
      · obtain ⟨⟨stand, hstand⟩, hahead⟩ := hforward index command target hcommand hlabel
        rw [hroutine.position?_command hnodup hstand] at hplace
        obtain rfl := Option.some.inj hplace
        have hbehind : index + 1 ≤ stand := hahead stand hstand
        have hle := extentOf_take_le hroutine.emits hbehind
        have hzero : extentOf builtins (Frame.ofCommands code) (code.take 0) = 0 := rfl
        rw [startOf, startOf, hzero]
        omega
      · have hcalled := hnames.called target
          (List.mem_filterMap.2 ⟨command, List.mem_of_getElem? hcommand, hexternal⟩)
        rw [hroutine.position?_of_not_mem hcalled.2.1 hcalled.2.2] at hplace
        cases hplace

theorem exists_loaded_opening (hsize : (Frame.ofCommands code).size < 0x80000000)
    {position index : Nat} (hposition : position = 4 + index)
    (hindex : index < (prologue (Frame.ofCommands code)).length) :
    ∃ instruction after, Loaded (loaded routine) position (instruction :: after) ∧
      instruction.target? = none ∧ instruction ≠ .ret := by
  subst hposition
  have hloaded := (hroutine.loaded_prologue hsize).drop index
  rw [List.drop_eq_getElem_cons hindex] at hloaded
  exact ⟨_, _, hloaded, prologue_plain (List.getElem_mem hindex)⟩

/-- Where a run is until the routine has made room for its variables. -/
theorem position_opening (hnames : HasOwnNames builtins code)
    (hsize : (Frame.ofCommands code).size < 0x80000000) {input : List Int32}
    (hruns : Runs (loaded routine) (count + 1) (.initial 0 input) state)
    (hcount : count ≤ (prologue (Frame.ofCommands code)).length) : state.position = 4 + count := by
  obtain ⟨middle, hmiddle, hstep⟩ := hruns.exists_last
  induction count generalizing state middle with
  | zero =>
      cases hmiddle
      have hloaded : Loaded (loaded routine) (State.initial 0 input).position shellBlock :=
        hroutine.loaded_shell
      rw [hloaded.step] at hstep
      simp only [State.execute, State.call,
        hroutine.position?_main (hnames.not_mem_labels (by decide))] at hstep
      exact congrArg State.position (Progress.running.inj hstep).symm
  | succ count ih =>
      obtain ⟨earlier, hearlier, hbefore⟩ := hmiddle.exists_last
      have hposition := ih hmiddle (by omega) earlier hearlier hbefore
      obtain ⟨instruction, after, hloaded, htarget, hret⟩ :=
        hroutine.exists_loaded_opening hsize hposition (by omega)
      rw [hloaded.step] at hstep
      rcases (leads_of_execute hstep).position with hnext | hret' | ⟨target, hmem, -⟩
      · exact hnext.trans (congrArg (· + 1) hposition)
      · exact absurd hret' hret
      · rw [htarget] at hmem
        cases hmem

/-- The routine returns to where it was called, and nothing else returns. -/
theorem returnsToShell (hnames : HasOwnNames builtins code)
    (hroom : (Frame.ofCommands code).size + wordSize * mostArguments builtins code < 0x80000000)
    (input : List Int32) : ReturnsToShell (loaded routine) (.initial 0 input) := by
  intro count state last hruns hret hstep
  have hsize : (Frame.ofCommands code).size < 0x80000000 := by omega
  have hcurrent {instruction : Instruction Operand} {after : List (Instruction Operand)}
      (hloaded : Loaded (loaded routine) state.position (instruction :: after)) :
      instruction = .ret :=
    Cell.run.inj (Option.some.inj (hloaded.head.symm.trans hret))
  rcases Nat.lt_or_ge count (1 + (prologue (Frame.ofCommands code)).length) with hlt | hle
  · cases count with
    | zero =>
        cases hruns
        cases hcurrent hroutine.loaded_shell
    | succ count =>
        have hposition := hroutine.position_opening hnames hsize hruns (by omega)
        obtain ⟨instruction, after, hloaded, -, hplain⟩ :=
          hroutine.exists_loaded_opening hsize hposition (by omega)
        exact absurd (hcurrent hloaded) hplain
  · obtain ⟨opened, hopening, hopened, hmemory⟩ :=
      hroutine.isOpened (fun name hmem hname => hnames.not_mem_labels hname hmem) hsize input
    obtain ⟨more, rfl⟩ := Nat.exists_eq_add_of_le hle
    have hstart := hroutine.phase_of_isOpened (fun command hmem => hnames.isConfined hmem) hopened
      hopened.base
    have hprogram := hroutine.isEnclosed hnames hroom
    obtain ⟨hphase, hkept⟩ := hstart.runs hprogram hmemory (hopening.continue hruns) .refl
    obtain ⟨returned, hreturned, hposition, -⟩ := hphase.step_ret hprogram hmemory hkept hret
    obtain rfl := Progress.running.inj (hreturned.symm.trans hstep)
    exact hposition

end IsListed

end

end Machine

end WhileCompiler
