import WhileCompiler.Proofs.Machine.StackPhases

/-!
# The stack discipline of generated programs

A generated program keeps its stack in order, whatever its code says: between two commands the stack
ends at the frame, the frame stays where it is, and nothing else is written but arguments of calls.
If the routine returns, it leaves the stack as it was when it was called.
-/

namespace WhileCompiler

open Asm Ir Text

namespace Machine

/-! ## What is asked of the code -/

/-- The names that code uses for places in itself. -/
def labelNames (code : List Command) : List String :=
  labels code ++ code.filterMap Command.target?

/-- How many arguments a command pushes. -/
def argumentCount (builtins : Builtins) : Command → Nat
  | .call _ function arguments =>
    if (builtins.recipe? function).isNone then arguments.length else 0
  | _ => 0

/-- The largest number of arguments that are on the stack at one time. -/
def mostArguments (builtins : Builtins) (code : List Command) : Nat :=
  (code.map (argumentCount builtins)).foldr max 0

theorem le_mostArguments (builtins : Builtins) {code : List Command} {command : Command}
    (hmem : command ∈ code) : argumentCount builtins command ≤ mostArguments builtins code := by
  induction code with
  | nil => cases hmem
  | cons first rest ih =>
      rw [mostArguments, List.map_cons, List.foldr_cons]
      rcases List.mem_cons.1 hmem with rfl | hmem
      · exact Nat.le_max_left _ _
      · exact Nat.le_trans (ih hmem) (Nat.le_max_right _ _)

theorem mostArguments_le {builtins : Builtins} {code : List Command} {bound : Nat}
    (hcode : ∀ command ∈ code, argumentCount builtins command ≤ bound) :
    mostArguments builtins code ≤ bound := by
  induction code with
  | nil => exact Nat.zero_le bound
  | cons first rest ih =>
      rw [List.forall_mem_cons] at hcode
      exact Nat.max_le.2 ⟨hcode.1, ih hcode.2⟩

/-- The names in code mean nothing to the shell, and functions outside the program are not called
by the names of labels.  The target of a jump is the name of a label, too, whether or not the code
places that label. -/
structure HasOwnNames (builtins : Builtins) (code : List Command) : Prop where
  labelled : ∀ name ∈ labelNames code, isIdentifier name.toList = true ∧ name ∉ shellSymbols
  called : ∀ name ∈ code.filterMap (external? builtins),
    isIdentifier name.toList = true ∧ name ∉ shellSymbols ∧ name ∉ labels code

section

variable {builtins : Builtins} {code : List Command} {routine : Routine} {emitted : List Line}

theorem mem_externals {destination function : String} {arguments : List Value}
    (hmem : .call destination function arguments ∈ code)
    (hrecipe : builtins.recipe? function = none) :
    function ∈ code.filterMap (external? builtins) := by
  refine List.mem_filterMap.2 ⟨_, hmem, ?_⟩
  simp only [external?, hrecipe, Option.isNone_none, if_true]

theorem length_le_mostArguments {destination function : String} {arguments : List Value}
    (hmem : .call destination function arguments ∈ code)
    (hrecipe : builtins.recipe? function = none) :
    arguments.length ≤ mostArguments builtins code := by
  have hcount := le_mostArguments builtins hmem
  simpa only [argumentCount, hrecipe, Option.isNone_none, if_true] using hcount

theorem HasOwnNames.isPrintable (hnames : HasOwnNames builtins code)
    (hroom : wordSize * mostArguments builtins code < 0x80000000) {command : Command}
    (hmem : command ∈ code) : IsPrintable builtins command where
  label name hname :=
    (hnames.labelled name (List.mem_append_left _ (List.mem_filterMap.2 ⟨_, hmem, hname⟩))).1
  target name hname :=
    (hnames.labelled name (List.mem_append_right _ (List.mem_filterMap.2 ⟨_, hmem, hname⟩))).1
  external := by
    rintro destination function arguments rfl hrecipe
    refine ⟨(hnames.called function (mem_externals hmem hrecipe)).1, ?_⟩
    have hcount := length_le_mostArguments hmem hrecipe
    simp only [wordSize] at hroom ⊢
    omega

/-- Jumps go to labels of the code, and calls to what the host is asked for. -/
theorem HasOwnNames.isConfined (hnames : HasOwnNames builtins code) {command : Command}
    (hmem : command ∈ code) :
    IsConfined builtins (mostArguments builtins code) (· ∉ shellSymbols)
      (fun name => name ∉ shellSymbols ∧ name ∉ labels code) command where
  target name hname :=
    (hnames.labelled name (List.mem_append_right _ (List.mem_filterMap.2 ⟨_, hmem, hname⟩))).2
  external := by
    rintro destination function arguments rfl hrecipe
    exact ⟨(hnames.called function (mem_externals hmem hrecipe)).2,
      length_le_mostArguments hmem hrecipe⟩

/-! ## The routine in memory -/

/-- Between two commands there is nothing on the stack below the frame. -/
theorem IsListed.before_command (hroutine : IsListed builtins code routine emitted) {most : Nat}
    {targets hosts : String → Prop}
    (hconfined : ∀ command ∈ code, IsConfined builtins most targets hosts command) (index : Nat) :
    ∃ right, Before (startOf builtins code 0) (instructionsOf emitted) right
        (startOf builtins code index) ∧
      Balanced (Frame.ofCommands code) most targets hosts 0 right := by
  have hsplit : emitAll builtins (Frame.ofCommands code) (code.take index ++ code.drop index) =
      .ok emitted := by
    rw [List.take_append_drop]
    exact hroutine.emits
  obtain ⟨before, after, hbefore, hafter, rfl⟩ := emitAll_append hsplit
  refine ⟨instructionsOf after, ⟨?_, ?_⟩,
    balanced_emitAll (fun command hmem => hconfined command (List.mem_of_mem_drop hmem)) hafter⟩
  · rw [instructionsOf_append]
    exact List.suffix_append _ _
  · have hzero : extentOf builtins (Frame.ofCommands code) (code.take 0) = 0 := rfl
    rw [startOf, startOf, extentOf_eq hbefore, hzero, instructionsOf_append, List.length_append]
    omega

theorem IsListed.isEnclosed (hroutine : IsListed builtins code routine emitted)
    (hnames : HasOwnNames builtins code)
    (hroom : (Frame.ofCommands code).size + wordSize * mostArguments builtins code < 0x80000000) :
    IsEnclosed (Frame.ofCommands code) (mostArguments builtins code) (· ∉ shellSymbols)
      (fun name => name ∉ shellSymbols ∧ name ∉ labels code) (startOf builtins code 0)
      (instructionsOf emitted) (loaded routine) where
  shell := hroutine.loaded_shell
  loaded := hroutine.loaded_code (by omega)
  targets := by
    intro name position hname hposition
    obtain ⟨index, -, rfl⟩ := hroutine.exists_startOf hposition hname
    exact hroutine.before_command (fun command hmem => hnames.isConfined hmem) index
  hosts name hname := hroutine.position?_of_not_mem hname.1 hname.2
  room := by
    rw [Nat.mul_add]
    exact hroom

end

/-! ## Runs -/

/-- The routine has been called and has made room for its variables. -/
structure IsOpened (builtins : Builtins) (code : List Command) (caller opened : State) : Prop where
  position : opened.position = startOf builtins code 0
  base : opened.get .ebp = caller.get .esp - 8
  top : opened.get .esp = opened.get .ebp - Int32.ofInt (Frame.ofCommands code).size
  savedBase : opened.memory.read (opened.get .ebp).toUInt32 = caller.get .ebp
  returnAddress :
    opened.memory.read (opened.get .ebp + 4).toUInt32 = Int32.ofInt ↑(caller.position + 1)

/-- What is kept since the routine has made room for its variables. -/
structure StackKept (builtins : Builtins) (code : List Command) (opened state : State) : Prop where
  memory : KeptOutside (opened.get .ebp)
    ((Frame.ofCommands code).names.length + mostArguments builtins code) opened state
  savedBase : state.memory.read (opened.get .ebp).toUInt32 =
    opened.memory.read (opened.get .ebp).toUInt32
  returnAddress : state.memory.read (opened.get .ebp + 4).toUInt32 =
    opened.memory.read (opened.get .ebp + 4).toUInt32
  /-- The stack ends at the frame wherever the instructions of a command begin. -/
  between : ∀ index, state.position = startOf builtins code index →
    state.get .ebp = opened.get .ebp ∧
      state.get .esp = state.get .ebp - Int32.ofInt (Frame.ofCommands code).size

section

variable {builtins : Builtins} {code : List Command} {routine : Routine} {emitted : List Line}
  {caller opened state : State}

theorem IsListed.isOpened (hroutine : IsListed builtins code routine emitted)
    (hlabels : ∀ name ∈ labels code, name ∉ shellSymbols)
    (hsize : (Frame.ofCommands code).size < 0x80000000) (input : List Int32) :
    ∃ opened, Runs (loaded routine) (1 + (prologue (Frame.ofCommands code)).length)
        (.initial 0 input) opened ∧
      IsOpened builtins code (.initial 0 input) opened ∧ opened.memory = openingMemory := by
  obtain ⟨opened, hruns, hposition, htop, hbase, hmemory, -, -⟩ :=
    runs_prologue (hroutine.hasShell hlabels) (hroutine.loaded_prologue hsize) input
  refine ⟨opened, hruns, ⟨hposition, hbase, ?_, ?_, ?_⟩, hmemory⟩
  · rw [htop, hbase]
  · rw [hbase, toUInt32_frameBase, hmemory, openingMemory_savedBase]
    rfl
  · rw [hbase, toUInt32_frameBase_add, hmemory, openingMemory_returnAddress]
    rfl

section

variable {most : Nat} {targets hosts : String → Prop}
  (hconfined : ∀ command ∈ code, IsConfined builtins most targets hosts command)

include hconfined

theorem IsListed.phase_of_isOpened (hroutine : IsListed builtins code routine emitted)
    (hopened : IsOpened builtins code caller opened) (hbase : opened.get .ebp = frameBase) :
    Phase (Frame.ofCommands code) most targets hosts (startOf builtins code 0)
      (instructionsOf emitted) opened := by
  obtain ⟨right, hbefore, hbalanced⟩ := hroutine.before_command hconfined 0
  refine .inside (hopened.position ▸ hbefore) hbalanced ⟨hbase, ?_⟩
  rw [hopened.top, hbase]
  rfl

/-- In front of a command, the stack ends at the frame. -/
theorem IsListed.stacked_of_phase (hroutine : IsListed builtins code routine emitted)
    (hphase : Phase (Frame.ofCommands code) most targets hosts (startOf builtins code 0)
      (instructionsOf emitted) state) {index : Nat}
    (hposition : state.position = startOf builtins code index) :
    Stacked frameBase (Frame.ofCommands code).size state := by
  obtain ⟨right, hbefore, hbalanced⟩ := hroutine.before_command hconfined index
  have hplace := hbefore.position
  rw [← hposition] at hbefore hplace
  cases hphase with
  | inside hother hdepth hstacked =>
      obtain rfl := hother.unique hbefore
      rwa [hdepth.unique hbalanced] at hstacked
  | released hreleased _ => omega
  | restored hrestored _ _ => omega
  | returned _ hlt _ _ =>
      rw [hposition, startOf] at hlt
      omega

end

/-- The words above the frame and the registers, from the phase of a run and what it has written. -/
theorem IsListed.stackKept (hroutine : IsListed builtins code routine emitted)
    {targets hosts : String → Prop}
    (hconfined : ∀ command ∈ code,
      IsConfined builtins (mostArguments builtins code) targets hosts command)
    (hprogram : IsEnclosed (Frame.ofCommands code) (mostArguments builtins code) targets hosts
      (startOf builtins code 0) (instructionsOf emitted) (loaded routine))
    (hbase : opened.get .ebp = frameBase)
    (hphase : Phase (Frame.ofCommands code) (mostArguments builtins code) targets hosts
      (startOf builtins code 0) (instructionsOf emitted) state)
    (hkept : KeptOutside frameBase
      ((Frame.ofCommands code).names.length + mostArguments builtins code) opened state) :
    StackKept builtins code opened state where
  memory := hbase ▸ hkept
  savedBase := by
    rw [hbase, toUInt32_frameBase]
    exact hkept.read_wordAt hprogram.room (by decide) (by decide)
  returnAddress := by
    rw [hbase, toUInt32_frameBase_add]
    exact hkept.read_wordAt hprogram.room (by decide) (by decide)
  between index hposition := by
    have hstacked := hroutine.stacked_of_phase hconfined hphase hposition
    refine ⟨hstacked.bottom.trans hbase.symm, ?_⟩
    rw [hstacked.top, hstacked.bottom]

end

/-- The program that code describes keeps its stack in order on every input.  Where a command
begins, the stack ends at the frame, which has not moved; the caller's base and the return address
are intact, and nothing has been written but variables and arguments.  The routine returns behind
the call of the shell, with the registers that it was called with. -/
theorem listing_keeps_stack (builtins : Builtins) (code : List Command) (lines : List String)
    (hlines : listing builtins code = .ok lines) (hnames : HasOwnNames builtins code)
    (hroom : (Frame.ofCommands code).size + wordSize * mostArguments builtins code < 0x80000000)
    (input : List Int32) :
    let program := Program.ofListing lines
    let caller := State.initial 0 input
    program.position? "_start" = some 0 ∧ program.code[0]? = some (.run (.call "main")) ∧
      (∀ index command, code[index]? = some command →
        ∃ chunk, emit builtins (Frame.ofCommands code) command = .ok chunk ∧
          Loaded program (startOf builtins code index) (instructionsOf chunk)) ∧
      ∃ opened, Runs program (1 + (prologue (Frame.ofCommands code)).length) caller opened ∧
        IsOpened builtins code caller opened ∧
        ∀ count state, Runs program count opened state →
          StackKept builtins code opened state ∧
            (program.code[state.position]? = some (.run .ret) →
              ∃ returned, state.step program = .running returned ∧
                returned.position = caller.position + 1 ∧
                returned.get .esp = caller.get .esp ∧ returned.get .ebp = caller.get .ebp) := by
  intro program caller
  obtain ⟨routine, emitted, hemitted, hroutineLines, -, rfl⟩ := listing_eq hlines
  have hsize : (Frame.ofCommands code).size < 0x80000000 := by omega
  have hroutine : IsListed builtins code routine emitted :=
    ⟨fun command hmem => hnames.isPrintable (by omega) hmem, hemitted, hroutineLines⟩
  have hconfined := fun command (hmem : command ∈ code) => hnames.isConfined hmem
  have hlabels : ∀ name ∈ labels code, name ∉ shellSymbols :=
    fun name hmem => (hnames.labelled name (List.mem_append_left _ hmem)).2
  have hprogram := hroutine.isEnclosed hnames hroom
  obtain ⟨opened, hruns, hopened, hmemory⟩ := hroutine.isOpened hlabels hsize input
  have hbase : opened.get .ebp = frameBase := hopened.base
  have hstart := hroutine.phase_of_isOpened hconfined hopened hbase
  refine ⟨hroutine.position?_start fun hmem => hlabels _ hmem (by decide),
    hroutine.loaded_shell.head, ?_, opened, hruns, hopened, ?_⟩
  · intro index command hcommand
    obtain ⟨chunk, hchunk, hloaded, -⟩ := hroutine.loaded_command hsize hcommand
    exact ⟨chunk, hchunk, hloaded⟩
  · intro count state hreached
    obtain ⟨hphase, hkept⟩ := hstart.runs hprogram hmemory hreached .refl
    exact ⟨hroutine.stackKept hconfined hprogram hbase hphase hkept,
      fun hret => hphase.step_ret hprogram hmemory hkept hret⟩

/-- Code that counts down from a number that it reads, and passes one argument too many. -/
def draining : List Command :=
  [.call "n" "readInt" [], .label "again",
    .call "shown" "printInt" [.variable "n", .constant 5],
    .call "n" "-" [.variable "n", .constant 1], .jumpIf "again" (.variable "n")]

theorem listing_keeps_stack_draining :
    HasOwnNames .standard draining ∧
      (Frame.ofCommands draining).size + wordSize * mostArguments .standard draining < 0x80000000 ∧
      ∃ lines, listing .standard draining = .ok lines ∧
        ∃ opened, Runs (Program.ofListing lines) 4 (State.initial 0 [2]) opened ∧
          ∀ count state, Runs (Program.ofListing lines) count opened state →
            StackKept .standard draining opened state := by
  have hnames : HasOwnNames .standard draining := ⟨by decide, by decide⟩
  refine ⟨hnames, by decide, _, rfl, ?_⟩
  obtain ⟨-, -, -, opened, hruns, -, hkeeps⟩ :=
    listing_keeps_stack .standard draining _ rfl hnames (by decide) [2]
  exact ⟨opened, hruns, fun count state hreached => (hkeeps count state hreached).1⟩

end Machine

end WhileCompiler
