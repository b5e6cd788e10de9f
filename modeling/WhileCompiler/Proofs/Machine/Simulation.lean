import WhileCompiler.Proofs.Asm.EmittedCode
import WhileCompiler.Proofs.Ir.Placement
import WhileCompiler.Proofs.Machine.FrameWords

/-!
# Commands on the machine

The instructions of each command do to the words of the frame what the command does to the
variables.  Labels have no instructions, and every other command has some.
-/

namespace WhileCompiler

open Asm Ir Semantics

namespace Machine

/-- How the machine reports an error.  The remaining errors are not errors of running programs. -/
def faultOf? : ConsoleError → Option Fault
  | .inputExhausted => some .inputExhausted
  | .divisionByZero => some .divisionByZero
  | .unknownFunction _ | .wrongCount => none

/-- The instructions of the shell. -/
def shellBlock : List (Instruction Operand) :=
  [.call "main", .move (.constant 1) (.register .eax), .move (.constant 0) (.register .ebx),
    .systemCall]

/-- A shell in the memory of the machine, and the beginning of the routine that it calls. -/
structure HasShell (program : Program) : Prop where
  start : program.position? "_start" = some 0
  main : program.position? "main" = some 4
  shell : Loaded program 0 shellBlock
  opening : Loaded program 4 [.push (.register .ebp), .move (.register .esp) (.register .ebp)]

/-- The code of commands in the memory of the machine. -/
structure Image (code : List Command) (program : Program) where
  /-- Where the instructions of a command begin. -/
  address : Nat → Nat
  start : address 0 = 4 + (prologue (Frame.ofCommands code)).length
  emitted : ∀ {position : Nat} {command : Command}, code[position]? = some command →
    ∃ lines, emit .standard (Frame.ofCommands code) command = .ok lines ∧
      Loaded program (address position) (instructionsOf lines) ∧
      address (position + 1) = address position + (instructionsOf lines).length
  labelled : ∀ {position : Nat} {name : String}, code[position]? = some (.label name) →
    program.position? name = some (address position)
  shell : HasShell program
  opening : Loaded program 4 (prologue (Frame.ofCommands code))
  closing : Loaded program (address code.length) epilogue
  print : program.position? "printInt" = none
  read : program.position? "readInt" = none

section

variable {program : Program} {frame : Frame} {values : String → Int32} {console : Console}
  {state last : State}

/-- The last instruction of a command stores the accumulator in the word of a variable. -/
theorem runs_store (hsize : frame.size < 0x80000000)
    (hframed : Framed frame values console state) {name : String} {slot : Operand}
    (hslot : frame.slot name = .ok slot)
    (hloaded : Loaded program state.position [.move (.register .eax) slot]) :
    ∃ last, Runs program 1 state last ∧ last.position = state.position + 1 ∧
      Framed frame (fun other => if other = name then state.get .eax else values other) console
        last := by
  obtain ⟨offset, hoffset, rfl⟩ := slot_eq hslot
  refine ⟨_, hloaded.runs rfl, rfl, ?_⟩
  have hnext : Framed frame values console state.next := hframed.same ⟨rfl, rfl, rfl, rfl, rfl⟩
  have hstored := hnext.store hsize hoffset (state.get .eax)
  rw [← hnext.address_eq] at hstored
  exact hstored

theorem runs_copy (hsize : frame.size < 0x80000000)
    (hframed : Framed frame values console state) {name : String} {value : Value}
    {operand slot : Operand} (hoperand : frame.operand value = .ok operand)
    (hslot : frame.slot name = .ok slot)
    (hloaded : Loaded program state.position
      [.move operand (.register .eax), .move (.register .eax) slot]) :
    ∃ last, Runs program 2 state last ∧ last.position = state.position + 2 ∧
      Framed frame (fun other => if other = name then value.read values else values other) console
        last := by
  have hnext : Framed frame values console state.next := hframed.same ⟨rfl, rfl, rfl, rfl, rfl⟩
  have hfirst : Runs program 1 state (state.next.set .eax (value.read values)) := by
    refine hloaded.runs ?_
    rw [← hnext.read_operand hoperand]
    rfl
  have hframed' : Framed frame values console (state.next.set .eax (value.read values)) :=
    hnext.same ⟨rfl, rfl, rfl, rfl, rfl⟩
  obtain ⟨last, hruns, hposition, hlast⟩ := runs_store hsize hframed' hslot hloaded.tail
  exact ⟨last, hfirst.trans hruns, hposition, hlast⟩

/-- An operator fails on the machine where it fails, and otherwise stores its result. -/
theorem runs_operator (hsize : frame.size < 0x80000000)
    (hframed : Framed frame values console state) {operator : Operator} {name : String}
    {arguments : List Value} {found : OperandsOf arguments} {slot : Operand}
    (hcount : arguments.length = operator.recipe.arity)
    (hfound : operands frame arguments = .ok found) (hslot : frame.slot name = .ok slot)
    (hloaded : Loaded program state.position
      (operator.recipe.instructions found.val (found.property.trans hcount) ++
        [.move (.register .eax) slot])) :
    match applyOperator operator (arguments.map (Value.read values)) with
    | .ok value => ∃ count last, 0 < count ∧ Runs program count state last ∧
      last.position = state.position +
        (operator.recipe.instructions found.val (found.property.trans hcount)).length + 1 ∧
      Framed frame (fun other => if other = name then value else values other) console last
    | .error error => error = .divisionByZero ∧ ∃ count last, Runs program count state last ∧
      last.step program = .failed .divisionByZero := by
  have hsources : ∀ operand ∈ found.val, IsSource operand := by
    intro operand hmem
    obtain ⟨value, -, hoperand⟩ := exists_of_mem_operands hfound operand hmem
    exact isSource_operand hoperand
  have hread := map_operands (fun value operand => hframed.read_operand) hfound
  have hperforms := performs_recipe (found.property.trans hcount) hsources hloaded.left
  rw [hread] at hperforms
  cases happlied : applyOperator operator (arguments.map (Value.read values)) with
  | error error =>
      rw [happlied] at hperforms
      exact hperforms
  | ok value =>
      rw [happlied] at hperforms
      obtain ⟨count, middle, hpos, hruns, hevaluated⟩ := hperforms
      have hmove : Loaded program middle.position [.move (.register .eax) slot] :=
        hevaluated.position ▸ hloaded.right
      obtain ⟨last, hstore, hposition, hlast⟩ :=
        runs_store hsize (hframed.same hevaluated.same) hslot hmove
      rw [hevaluated.result] at hlast
      refine ⟨count + 1, last, Nat.succ_pos count, hruns.trans hstore, ?_, hlast⟩
      rw [hposition, hevaluated.position]

/-- A word below the frame belongs to no variable. -/
theorem Framed.write_below (hsize : frame.size < 0x80000000)
    (hframed : Framed frame values console state) (value : Int32) :
    Framed frame values console
      { state with memory := state.memory.write (wordAt (frame.size + 4)) value } := by
  have hkept {other : Int} (hother : -4 ≤ other ∧ other ≤ frame.size) :
      (state.memory.write (wordAt (frame.size + 4)) value).read (wordAt other) =
        state.memory.read (wordAt other) :=
    Framed.read_write_of_ne hsize (by omega) hother (by omega) value
  refine ⟨hframed.base, hframed.top, ?_, ?_, ?_, hframed.input, hframed.output⟩
  · intro name offset hoffset
    have hle := (offset?_spec hoffset).2
    rw [← hframed.slots name offset hoffset]
    exact hkept (by omega)
  · rw [← hframed.savedBase]
    exact hkept (by omega)
  · rw [← hframed.returnAddress]
    exact hkept (by omega)

/-- A word that was pushed and printed is given back, and only the output is another one. -/
theorem Framed.released (hsize : frame.size < 0x80000000)
    (hframed : Framed frame values console state) {printed : State} {value : Int32}
    (hmemory : printed.memory = (state.push value).memory)
    (htop : printed.get .esp = state.get .esp - 4) (hbase : printed.get .ebp = state.get .ebp)
    (hinput : printed.input = state.input) (houtput : printed.output = state.output.push value) :
    Framed frame values { console with output := console.output ++ [value] }
      (printed.next.set .esp (printed.get .esp + 4)) := by
  have hbelow := hframed.write_below hsize value
  have hwritten : printed.memory = state.memory.write (wordAt (frame.size + 4)) value := by
    rw [hmemory, ← wordAt_eq_sub, ← hframed.top]
    rfl
  refine ⟨hbase.trans hframed.base, ?_, ?_, ?_, ?_, hinput.trans hframed.input, ?_⟩
  · refine Eq.trans ?_ hframed.top
    rw [htop]
    exact Int32.sub_add_cancel (state.get .esp) 4
  · exact hwritten ▸ hbelow.slots
  · exact hwritten ▸ hbelow.savedBase
  · exact hwritten ▸ hbelow.returnAddress
  · rw [← hframed.output, ← Array.toList_push, ← houtput]
    rfl

theorem execute_print (hhost : program.position? "printInt" = none) (state : State) :
    state.execute program (.call "printInt") = .running { state with
      output := state.output.push (state.memory.read (state.get .esp).toUInt32) } := by
  simp only [State.execute, State.call, hhost]
  rfl

/-- Printing a value, and keeping what the accumulator held before. -/
theorem runs_print (hsize : frame.size < 0x80000000)
    (hframed : Framed frame values console state) {name : String} {value : Value}
    {operand slot : Operand} (hoperand : frame.operand value = .ok operand)
    (hslot : frame.slot name = .ok slot) (hhost : program.position? "printInt" = none)
    (hloaded : Loaded program state.position
      [.push operand, .call "printInt", .combine .add (.constant 4) (.register .esp),
        .move (.register .eax) slot]) :
    ∃ last, Runs program 4 state last ∧ last.position = state.position + 4 ∧
      Framed frame (fun other => if other = name then state.get .eax else values other)
        { console with output := console.output ++ [value.read values] } last := by
  have hnext : Framed frame values console state.next := hframed.same ⟨rfl, rfl, rfl, rfl, rfl⟩
  have hpush : state.step program = .running (state.next.push (value.read values)) := by
    rw [hloaded.step, ← hnext.read_operand hoperand]
    rfl
  -- The host prints the word on top of the stack, which is the one just pushed.
  have htop : (state.next.push (value.read values)).memory.read
      ((state.next.push (value.read values)).get .esp).toUInt32 = value.read values :=
    (Memory.read_write _ _ _ _).trans (if_pos rfl)
  obtain ⟨printed, hprint, hposition, haccumulator, hreleased⟩ :
      ∃ printed, (state.next.push (value.read values)).step program = .running printed ∧
        printed.position = state.position + 2 ∧ printed.get .eax = state.get .eax ∧
        Framed frame values { console with output := console.output ++ [value.read values] }
          (printed.next.set .esp (printed.get .esp + 4)) := by
    have hcall : Loaded program (state.next.push (value.read values)).position
        (.call "printInt" :: _) := hloaded.tail
    refine ⟨_, hcall.step.trans (execute_print hhost _), rfl, rfl, ?_⟩
    exact hframed.released hsize rfl rfl rfl rfl (congrArg state.output.push htop)
  have hadd : Loaded program printed.position
      [.combine .add (.constant 4) (.register .esp), .move (.register .eax) slot] :=
    hposition ▸ hloaded.tail.tail
  obtain ⟨last, hstore, hlast, hstored⟩ := runs_store hsize hreleased hslot hadd.tail
  refine ⟨last, ((Runs.single hpush).trans (.single hprint)).trans ((hadd.runs rfl).trans hstore),
    ?_, ?_⟩
  · rw [hlast]
    exact congrArg (· + 2) hposition
  · have hkept : (printed.next.set .esp (printed.get .esp + 4)).get .eax = state.get .eax :=
      haccumulator
    rw [hkept] at hstored
    exact hstored

/-- Before a number is printed, it is pushed, and nothing has been printed yet. -/
theorem runs_push {operand : Operand} {after : List (Instruction Operand)}
    (hloaded : Loaded program state.position (.push operand :: .call "printInt" :: after)) :
    ∃ pushed, Runs program 1 state pushed ∧
      program.code[pushed.position]? = some (.run (.call "printInt")) ∧
      pushed.output = state.output ∧ pushed.get .eax = state.get .eax :=
  ⟨_, hloaded.runs rfl, hloaded 1 _ rfl, rfl, rfl⟩

/-- Reading a number fails on the machine where there is none. -/
theorem runs_read (hsize : frame.size < 0x80000000)
    (hframed : Framed frame values console state) {name : String} {slot : Operand}
    (hslot : frame.slot name = .ok slot) (hhost : program.position? "readInt" = none)
    (hloaded : Loaded program state.position [.call "readInt", .move (.register .eax) slot]) :
    match console.input with
    | [] => state.step program = .failed .inputExhausted
    | value :: rest => ∃ last, Runs program 2 state last ∧ last.position = state.position + 2 ∧
      Framed frame (fun other => if other = name then value else values other)
        { console with input := rest } last := by
  have hexecute : state.step program = .ofExcept (state.next.callHost "readInt") := by
    rw [hloaded.step]
    simp only [State.execute, State.call, hhost]
  have hinput : state.next.input = console.input := hframed.input
  cases hconsole : console.input with
  | nil =>
      rw [hexecute]
      simp only [State.callHost, hinput, hconsole]
      rfl
  | cons value rest =>
      have hread : state.step program =
          .running ({ state.next with input := rest }.set .eax value) := by
        rw [hexecute]
        simp only [State.callHost, hinput, hconsole]
        rfl
      have hframed' : Framed frame values { console with input := rest }
          ({ state.next with input := rest }.set .eax value) :=
        ⟨hframed.base, hframed.top, hframed.slots, hframed.savedBase, hframed.returnAddress, rfl,
          hframed.output⟩
      obtain ⟨last, hstore, hposition, hlast⟩ := runs_store hsize hframed' hslot hloaded.tail
      exact ⟨last, (Runs.single hread).trans hstore, hposition, hlast⟩

/-- Before a jump that depends on a condition, the condition is compared with zero. -/
theorem runs_compare (hframed : Framed frame values console state) {condition : Value}
    {operand : Operand} {jump : Instruction Operand}
    (hoperand : frame.operand condition = .ok operand)
    (hloaded : Loaded program state.position
      [.move operand (.register .eax), .compare (.constant 0) (.register .eax), jump]) :
    ∃ middle, Runs program 2 state middle ∧ Loaded program middle.position [jump] ∧
      middle.position = state.position + 2 ∧
      middle.compared = (condition.read values, 0) ∧ Framed frame values console middle := by
  have hnext : Framed frame values console state.next := hframed.same ⟨rfl, rfl, rfl, rfl, rfl⟩
  refine ⟨_, (hloaded.runs rfl).trans (Loaded.runs hloaded.tail rfl), hloaded.tail.tail, rfl, ?_,
    hframed.same ⟨rfl, rfl, rfl, rfl, rfl⟩⟩
  rw [← hnext.read_operand hoperand]
  rfl

end

section

variable {code : List Command} {program : Program} {values : String → Int32} {console : Console}
  {state : State}

/-- Behind the last command the routine returns, and the program ends with what was printed. -/
theorem runs_closing (image : Image code program)
    (hframed : Framed (Frame.ofCommands code) values console state)
    (hposition : state.position = image.address code.length) :
    ∃ last, Runs program 5 state last ∧ last.step program = .exited ⟨0, console.output⟩ := by
  have hloaded : Loaded program state.position epilogue := hposition ▸ image.closing
  obtain ⟨returned, hreturn, hreturned, houtput⟩ : ∃ returned, Runs program 3 state returned ∧
      returned.position = 1 ∧ returned.output = state.output := by
    refine ⟨_, ((hloaded.runs rfl).trans (Loaded.runs hloaded.tail rfl)).trans
      (Loaded.runs hloaded.tail.tail rfl), ?_, rfl⟩
    have hreturn : state.memory.read (state.get .ebp + 4).toUInt32 = 1 := by
      rw [hframed.base, toUInt32_frameBase_add, hframed.returnAddress]
    exact congrArg (fun address => address.toInt64.toUInt64.toNat) hreturn
  have hshell : Loaded program returned.position [.move (.constant 1) (.register .eax),
      .move (.constant 0) (.register .ebx), .systemCall] := hreturned ▸ image.shell.shell.tail
  refine ⟨_, hreturn.trans ((hshell.runs rfl).trans (Loaded.runs hshell.tail rfl)), ?_⟩
  refine (Loaded.step hshell.tail.tail).trans ?_
  rw [← hframed.output, ← houtput]
  rfl

/-- The memory in which the routine begins: the return address and the caller's base. -/
def openingMemory : Memory :=
  (Memory.zero.write (wordAt (-4)) 1).write (wordAt 0) 0

/-- The shell enters the routine, which saves the base of its caller. -/
theorem runs_entry (hprogram : HasShell program) (input : List Int32) :
    ∃ entered, Runs program 3 (.initial 0 input) entered ∧ entered.position = 6 ∧
      entered.get .esp = frameBase ∧ entered.get .ebp = frameBase ∧
      entered.memory = openingMemory ∧ entered.input = input ∧ entered.output = #[] := by
  have hshell : Loaded program (State.initial 0 input).position shellBlock := hprogram.shell
  have hcall : (State.initial 0 input).step program =
      .running { (State.initial 1 input).push 1 with position := 4 } := by
    rw [hshell.step]
    simp only [State.execute, State.call, hprogram.main]
    rfl
  have hprologue : Loaded program
      ({ (State.initial 1 input).push 1 with position := 4 } : State).position
      [.push (.register .ebp), .move (.register .esp) (.register .ebp)] := hprogram.opening
  have hruns := (Loaded.runs hprologue rfl).trans (Loaded.runs hprologue.tail rfl)
  have hreturn : (State.stackTop - 4).toUInt32 = wordAt (-4) := by decide
  have hsaved : (State.stackTop - 4 - 4).toUInt32 = wordAt 0 := by decide
  have hbase : State.stackTop - 4 - 4 = frameBase := by decide
  refine ⟨_, (Runs.single hcall).trans hruns, rfl, hbase, hbase, ?_, rfl, rfl⟩
  rw [openingMemory, ← hreturn, ← hsaved]
  rfl

theorem openingMemory_savedBase : openingMemory.read (wordAt 0) = 0 :=
  (Memory.read_write _ _ _ _).trans (if_pos rfl)

theorem openingMemory_returnAddress : openingMemory.read (wordAt (-4)) = 1 := by
  have hne : wordAt (-4) ≠ wordAt 0 := by decide
  rw [openingMemory, Memory.read_write, if_neg hne, Memory.read_write, if_pos rfl]

theorem openingMemory_slot {frame : Frame} (hsize : frame.size < 0x80000000) {name : String}
    {offset : Nat} (hoffset : frame.offset? name = some offset) :
    openingMemory.read (wordAt offset) = 0 := by
  obtain ⟨hpos, hle⟩ := offset?_spec hoffset
  have hbase : wordAt offset ≠ wordAt 0 := fun heq => by
    have := wordAt_inj (by omega) (by omega) heq
    omega
  have hreturn : wordAt offset ≠ wordAt (-4) := fun heq => by
    have := wordAt_inj (by omega) (by omega) heq
    omega
  rw [openingMemory, Memory.read_write, if_neg hbase, Memory.read_write, if_neg hreturn,
    Memory.read_zero]

/-- The routine makes room for its variables. -/
theorem runs_prologue {frame : Frame} (hprogram : HasShell program)
    (hopening : Loaded program 4 (prologue frame)) (input : List Int32) :
    ∃ opened, Runs program (1 + (prologue frame).length) (.initial 0 input) opened ∧
      opened.position = 4 + (prologue frame).length ∧
      opened.get .esp = frameBase - Int32.ofInt frame.size ∧ opened.get .ebp = frameBase ∧
      opened.memory = openingMemory ∧ opened.input = input ∧ opened.output = #[] := by
  obtain ⟨entered, hruns, hposition, htop, hbase, hmemory, hinput, houtput⟩ :=
    runs_entry hprogram input
  by_cases hempty : frame.size = 0
  · rw [prologue, if_pos hempty]
    refine ⟨entered, hruns, hposition, ?_, hbase, hmemory, hinput, houtput⟩
    rw [htop, hempty]
    rfl
  · rw [prologue, if_neg hempty] at hopening ⊢
    have hroom : Loaded program entered.position
        [.combine .subtract (.constant frame.size) (.register .esp)] :=
      hposition ▸ hopening.right
    refine ⟨_, hruns.trans (hroom.runs rfl), congrArg (· + 1) hposition, ?_, hbase, hmemory, hinput,
      houtput⟩
    rw [← htop]
    rfl

/-- When the routine has made room for its variables, all of them are zero. -/
theorem runs_opening (image : Image code program)
    (hsize : (Frame.ofCommands code).size < 0x80000000) (input : List Int32) :
    ∃ count last, Runs program count (.initial 0 input) last ∧ last.position = image.address 0 ∧
      Framed (Frame.ofCommands code) (fun _ => 0) ⟨input, []⟩ last := by
  obtain ⟨opened, hruns, hposition, htop, hbase, hmemory, hinput, houtput⟩ :=
    runs_prologue image.shell image.opening input
  refine ⟨_, opened, hruns, hposition.trans image.start.symm, hbase, htop, ?_, ?_, ?_, hinput, ?_⟩
  · intro name offset hoffset
    rw [hmemory, openingMemory_slot hsize hoffset]
  · rw [hmemory, openingMemory_savedBase]
  · rw [hmemory, openingMemory_returnAddress]
  · rw [houtput]

end

end Machine

end WhileCompiler
