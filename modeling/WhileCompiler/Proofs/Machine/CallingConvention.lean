import WhileCompiler.Proofs.Machine.ListedRoutines

/-!
# The calling convention

A routine of the host finds its arguments on top of the stack, the first one uppermost, and leaves
its result in `%eax`.  The pushes before the call touch no variable, so that it makes no difference
that the arguments are read one after the other, and the words that they take are given back behind
the call.
-/

namespace WhileCompiler

open Asm Ir Text

namespace Machine

variable {frame : Frame} {program : Program} {state before between after last : State}
  {base : Int32} {depth : Nat}

/-! ## Variables that keep their values -/

/-- The frame is in the same place, and all of its variables have the same values. -/
structure SlotsKept (frame : Frame) (before after : State) : Prop where
  base : after.get .ebp = before.get .ebp
  slots : ∀ name slot, frame.slot name = .ok slot → after.read slot = before.read slot

theorem SlotsKept.trans (hfirst : SlotsKept frame before between)
    (hsecond : SlotsKept frame between after) : SlotsKept frame before after where
  base := hsecond.base.trans hfirst.base
  slots name slot hslot := (hsecond.slots name slot hslot).trans (hfirst.slots name slot hslot)

theorem SlotsKept.read_operand (hkept : SlotsKept frame before after) {value : Value}
    {operand : Operand} (hoperand : frame.operand value = .ok operand) :
    after.read operand = before.read operand := by
  rcases value with value | name
  · obtain rfl := Except.ok.inj hoperand
    rfl
  · exact hkept.slots name operand hoperand

/-! ## Words on the stack -/

/-- The words in use reach down to a depth below the base of the frame. -/
structure Stacked (base : Int32) (depth : Nat) (state : State) : Prop where
  bottom : state.get .ebp = base
  top : state.get .esp = base - Int32.ofInt depth

theorem Stacked.address_slot (hstacked : Stacked base depth state) (offset : Nat) :
    state.address (-offset) .ebp = wordBelow base offset := by
  rw [State.address, hstacked.bottom, Int32.ofInt_neg, wordBelow, Int32.sub_eq_add_neg]

/-- Words up to a depth below the base are as they were. -/
def WordsKept (base : Int32) (depth : Nat) (before after : State) : Prop :=
  ∀ distance : Nat, 0 < distance → distance ≤ depth →
    after.memory.read (wordBelow base distance) = before.memory.read (wordBelow base distance)

theorem WordsKept.trans (hfirst : WordsKept base depth before between)
    (hsecond : WordsKept base depth between after) : WordsKept base depth before after :=
  fun distance hpos hle => (hsecond distance hpos hle).trans (hfirst distance hpos hle)

theorem WordsKept.mono {less : Nat} (hkept : WordsKept base depth before after)
    (hle : less ≤ depth) : WordsKept base less before after :=
  fun distance hpos hdistance => hkept distance hpos (Nat.le_trans hdistance hle)

theorem WordsKept.slotsKept {other : Nat} (hkept : WordsKept base frame.size before after)
    (hbefore : Stacked base depth before) (hafter : Stacked base other after) :
    SlotsKept frame before after where
  base := hafter.bottom.trans hbefore.bottom.symm
  slots := by
    intro name slot hslot
    obtain ⟨offset, hoffset, rfl⟩ := slot_eq hslot
    obtain ⟨hpos, hle⟩ := offset?_spec hoffset
    simp only [State.read, hbefore.address_slot, hafter.address_slot]
    exact hkept offset hpos hle

/-- A push goes to the next word below those in use. -/
theorem stacked_push (hstacked : Stacked base depth state) (value : Int32) :
    Stacked base (depth + 4) (state.push value) ∧
      (state.push value).memory = state.memory.write (wordBelow base ↑(depth + 4)) value := by
  have htop : state.get .esp - 4 = base - Int32.ofInt ↑(depth + 4) := by
    rw [hstacked.top, Int.natCast_add, Int32.ofInt_add, ← Int32.sub_sub]
    rfl
  refine ⟨⟨hstacked.bottom, htop⟩, ?_⟩
  rw [wordBelow, ← htop]
  rfl

/-- Adding to the stack pointer gives words back. -/
theorem Stacked.top_add {words : Nat} (hstacked : Stacked base (depth + 4 * words) state) :
    state.get .esp + Int32.ofInt ↑(4 * words) = base - Int32.ofInt depth := by
  rw [hstacked.top, Int.natCast_add, Int32.ofInt_add, ← Int32.sub_sub, Int32.sub_add_cancel]

theorem wordsKept_write {distance : Nat} (habove : depth < distance)
    (hroom : distance < 0x80000000) {value : Int32}
    (hmemory : after.memory = before.memory.write (wordBelow base distance) value) :
    WordsKept base depth before after := by
  intro other hpos hle
  rw [hmemory, Memory.read_write, if_neg]
  intro heq
  have hsame := wordBelow_inj (by omega) (by omega) heq
  omega

/-- Operands that are pushed one after the other. -/
theorem runs_pushes {operands : List Operand} (hdepth : frame.size ≤ depth)
    (hroom : depth + 4 * operands.length < 0x80000000) (hstacked : Stacked base depth state)
    (hoperands : ∀ operand ∈ operands, ∃ value, frame.operand value = .ok operand)
    (hloaded : Loaded program state.position (operands.map .push)) :
    ∃ last, Runs program operands.length state last ∧
      last.position = state.position + operands.length ∧
      Stacked base (depth + 4 * operands.length) last ∧ WordsKept base depth state last ∧
      ∀ index operand, operands[index]? = some operand →
        last.memory.read (wordBelow base ↑(depth + 4 * (index + 1))) = state.read operand := by
  induction operands generalizing depth state with
  | nil => exact ⟨state, .refl, rfl, hstacked, fun _ _ _ => rfl, fun _ _ => nofun⟩
  | cons first rest ih =>
      rw [List.length_cons] at hroom
      obtain ⟨pushed, hpushed⟩ :
          ∃ pushed : State, pushed = state.next.push (state.next.read first) := ⟨_, rfl⟩
      have hnext : Stacked base depth state.next := ⟨hstacked.bottom, hstacked.top⟩
      have hread {operand : Operand} (hmem : operand ∈ first :: rest) :
          state.next.read operand = state.read operand := by
        obtain ⟨value, hvalue⟩ := hoperands operand hmem
        have hsame : SlotsKept frame state state.next :=
          ⟨rfl, fun _ slot _ => by cases slot <;> rfl⟩
        exact hsame.read_operand hvalue
      have hstep : state.step program = .running pushed := by
        rw [hpushed]
        exact hloaded.step
      obtain ⟨hdeeper, hmemory⟩ := stacked_push hnext (state.next.read first)
      rw [← hpushed, hread List.mem_cons_self] at hmemory
      rw [← hpushed] at hdeeper
      have hkept : WordsKept base depth state pushed :=
        wordsKept_write (Nat.lt_add_of_pos_right (by decide)) (by omega) hmemory
      -- The operands of later pushes are read from the frame, which this one leaves alone.
      have hslots := (hkept.mono hdepth).slotsKept hstacked hdeeper
      have hposition : pushed.position = state.position + 1 := hpushed ▸ rfl
      obtain ⟨last, hruns, hlast, htop, hwords, hvalues⟩ := ih (by omega) (by omega) hdeeper
        (fun operand hmem => hoperands operand (List.mem_cons_of_mem _ hmem))
        (hposition ▸ hloaded.tail)
      have hlength : depth + 4 * (rest.length + 1) = depth + 4 + 4 * rest.length := by omega
      refine ⟨last, .step hstep hruns, ?_, ?_, hkept.trans (hwords.mono (by omega)), ?_⟩
      · rw [hlast, hposition, List.length_cons]
        omega
      · rw [List.length_cons, hlength]
        exact htop
      -- The word of the first push is kept by the later ones; those of the later ones are theirs.
      · intro index operand hoperand
        cases index with
        | zero =>
            obtain rfl := Option.some.inj hoperand
            have hfirst := hwords (depth + 4) (by omega) (Nat.le_refl _)
            rw [hmemory, Memory.read_write] at hfirst
            exact hfirst.trans (if_pos rfl)
        | succ index =>
            have hmem : operand ∈ rest := List.mem_of_getElem? hoperand
            obtain ⟨value, hvalue⟩ := hoperands operand (List.mem_cons_of_mem _ hmem)
            have hindex : depth + 4 * (index + 1 + 1) = depth + 4 + 4 * (index + 1) := by omega
            rw [hindex, hvalues index operand hoperand]
            exact hslots.read_operand hvalue

/-! ## Calls of the host -/

/-- The arguments of a call are on the stack, the first one uppermost, with the values that they had
before the call was prepared. -/
structure ArgumentsPassed (frame : Frame) (arguments : List Value) (before called : State) :
    Prop where
  words : ∀ index argument, arguments[index]? = some argument →
    ∃ operand, frame.operand argument = .ok operand ∧
      called.read (.memory (4 * index : Nat) .esp) = before.read operand
  slots : SlotsKept frame before called

/-- The result of a call is in its variable, and everything else is as before. -/
structure ResultStored (frame : Frame) (destination : String) (result : Int32)
    (before last : State) : Prop where
  base : last.get .ebp = before.get .ebp
  top : last.get .esp = last.get .ebp - Int32.ofInt frame.size
  stored : ∃ slot, frame.slot destination = .ok slot ∧ last.read slot = result
  others : ∀ name slot, name ≠ destination → frame.slot name = .ok slot →
    last.read slot = before.read slot

theorem Stacked.read_top {words index : Nat} (hstacked : Stacked base (depth + 4 * words) state)
    (hindex : index < words) :
    state.read (.memory (4 * index : Nat) .esp) =
      state.memory.read (wordBelow base ↑(depth + 4 * (words - 1 - index + 1))) := by
  have hdistance : ((depth + 4 * words : Nat) : Int) =
      ↑(depth + 4 * (words - 1 - index + 1)) + ↑(4 * index) := by omega
  rw [State.read, State.address, hstacked.top, wordBelow, hdistance, Int32.ofInt_add,
    ← Int32.sub_sub, Int32.sub_add_cancel]

/-- The pushes in front of a call pass its arguments. -/
theorem runs_arguments {arguments : List Value} {found : OperandsOf arguments.reverse}
    (hroom : frame.size + 4 * arguments.length < 0x80000000)
    (hfound : operands frame arguments.reverse = .ok found)
    (hstacked : Stacked base frame.size state)
    (hloaded : Loaded program state.position (found.val.map .push)) :
    ∃ called, Runs program arguments.length state called ∧
      called.position = state.position + arguments.length ∧
      Stacked base (frame.size + 4 * arguments.length) called ∧
      ArgumentsPassed frame arguments state called := by
  have hlength : found.val.length = arguments.length := by
    rw [found.property, List.length_reverse]
  have hoperands : ∀ operand ∈ found.val, ∃ value, frame.operand value = .ok operand := by
    intro operand hmem
    obtain ⟨value, -, hvalue⟩ := exists_of_mem_operands hfound operand hmem
    exact ⟨value, hvalue⟩
  obtain ⟨called, hruns, hposition, htop, hwords, hvalues⟩ :=
    runs_pushes (Nat.le_refl _) (hlength ▸ hroom) hstacked hoperands hloaded
  rw [hlength] at hruns hposition htop
  refine ⟨called, hruns, hposition, htop, fun index argument hargument => ?_,
    hwords.slotsKept hstacked htop⟩
  have hindex : index < arguments.length := (List.getElem?_eq_some_iff.1 hargument).1
  have hreverse : arguments.reverse[arguments.length - 1 - index]? = some argument := by
    rw [List.getElem?_reverse (by omega), ← hargument]
    congr 1
    omega
  obtain ⟨operand, hoperand, hplace⟩ := operands_getElem? hfound hreverse
  exact ⟨operand, hoperand, (htop.read_top hindex).trans (hvalues _ operand hplace)⟩

/-- The words of the arguments are given back. -/
theorem runs_release {size count : Nat} (hstacked : Stacked base (size + 4 * count) state)
    (hloaded : Loaded program state.position (release count)) :
    ∃ last, Runs program (release count).length state last ∧
      last.position = state.position + (release count).length ∧ Stacked base size last ∧
      last.memory = state.memory ∧ last.get .eax = state.get .eax := by
  rw [release] at hloaded ⊢
  split at hloaded
  · next hnone =>
      rw [if_pos hnone]
      rw [hnone] at hstacked
      exact ⟨state, .refl, rfl, hstacked, rfl, rfl⟩
  · next hsome =>
      rw [if_neg hsome]
      exact ⟨_, hloaded.runs rfl, rfl, ⟨hstacked.bottom, hstacked.top_add⟩, rfl, rfl⟩

/-- Storing the accumulator changes one variable. -/
theorem runs_stored {destination : String} {slot : Operand} (hroom : frame.size < 0x80000000)
    (hslot : frame.slot destination = .ok slot) (hstacked : Stacked base frame.size state)
    (hloaded : Loaded program state.position [.move (.register .eax) slot]) :
    ∃ last, Runs program 1 state last ∧ last.position = state.position + 1 ∧
      ResultStored frame destination (state.get .eax) state last := by
  obtain ⟨offset, hoffset, rfl⟩ := slot_eq hslot
  obtain ⟨last, hlast⟩ : ∃ last : State, last = { state.next with
      memory := state.memory.write (state.address (-offset) .ebp) (state.get .eax) } := ⟨_, rfl⟩
  have hruns : Runs program 1 state last := hloaded.runs (hlast ▸ rfl)
  have hbottom : last.get .ebp = base := hlast ▸ hstacked.bottom
  have htop : last.get .esp = base - Int32.ofInt frame.size := hlast ▸ hstacked.top
  have hread (other : Nat) : last.read (.memory (-other) .ebp) =
      if wordBelow base other = wordBelow base offset then state.get .eax
      else state.read (.memory (-other) .ebp) := by
    have hafter : Stacked base frame.size last := ⟨hbottom, htop⟩
    rw [State.read, State.read, hafter.address_slot, hstacked.address_slot, hlast]
    simp only [hstacked.address_slot, Memory.read_write]
  refine ⟨last, hruns, hlast ▸ rfl, hbottom.trans hstacked.bottom.symm, ?_,
    ⟨_, hslot, (hread offset).trans (if_pos rfl)⟩, fun name slot hname hother => ?_⟩
  · rw [htop, hbottom]
  · obtain ⟨other, hfound, rfl⟩ := slot_eq hother
    rw [hread, if_neg]
    intro heq
    have hle := (offset?_spec hoffset).2
    have hotherLe := (offset?_spec hfound).2
    have hsame : (other : Int) = offset := wordBelow_inj (by omega) (by omega) heq
    obtain rfl := Int.ofNat.inj hsame
    exact hname (offset?_inj hfound hoffset)

/-- Behind a call, the words of its arguments are given back and its result is stored. -/
theorem runs_result {destination : String} {slot : Operand} {count : Nat} {returned : State}
    (hroom : frame.size < 0x80000000) (hslot : frame.slot destination = .ok slot)
    (hstacked : Stacked base (frame.size + 4 * count) returned)
    (hloaded : Loaded program returned.position
      (release count ++ [.move (.register .eax) slot])) :
    ∃ last, Runs program ((release count).length + 1) returned last ∧
      last.position = returned.position + ((release count).length + 1) ∧
      ResultStored frame destination (returned.get .eax) returned last := by
  obtain ⟨released, hruns, hposition, htop, hmemory, hresult⟩ :=
    runs_release hstacked hloaded.left
  obtain ⟨last, hstores, hlast, hstored⟩ :=
    runs_stored hroom hslot htop (hposition ▸ hloaded.right)
  have hsame (offset : Nat) :
      released.read (.memory (-offset) .ebp) = returned.read (.memory (-offset) .ebp) := by
    rw [State.read, State.read, htop.address_slot, hstacked.address_slot, hmemory]
  refine ⟨last, hruns.trans hstores, ?_, ?_, hstored.top, hresult ▸ hstored.stored, ?_⟩
  · rw [hlast, hposition, Nat.add_assoc]
  · exact (hstored.base.trans htop.bottom).trans hstacked.bottom.symm
  · intro name other hname hother
    obtain ⟨offset, -, rfl⟩ := slot_eq hother
    exact (hstored.others name _ hname hother).trans (hsame offset)

/-- The instructions of a call outside the program. -/
def callBlock (operands : List Operand) (function : String) (count : Nat) (slot : Operand) :
    List (Instruction Operand) :=
  operands.map .push ++ .call function :: release count ++ [.move (.register .eax) slot]

/-- A call that is prepared, and what it leaves behind if the host keeps the stack and the frame. -/
theorem runs_call {destination function : String} {arguments : List Value}
    {found : OperandsOf arguments.reverse} {slot : Operand}
    (hroom : frame.size + 4 * arguments.length < 0x80000000)
    (hfound : operands frame arguments.reverse = .ok found)
    (hslot : frame.slot destination = .ok slot) (hstacked : Stacked base frame.size state)
    (hloaded : Loaded program state.position
      (callBlock found.val function arguments.length slot)) :
    ∃ called, Runs program arguments.length state called ∧
      program.code[called.position]? = some (.run (.call function)) ∧
      ArgumentsPassed frame arguments state called ∧
      ∀ returned : State, returned.position = called.position + 1 →
        returned.get .esp = called.get .esp → SlotsKept frame called returned →
          ∃ count last, Runs program count returned last ∧
            last.position =
              state.position + (callBlock found.val function arguments.length slot).length ∧
            ResultStored frame destination (returned.get .eax) state last := by
  rw [callBlock, List.append_assoc] at hloaded ⊢
  obtain ⟨called, hruns, hcalled, hdeep, hpassed⟩ :=
    runs_arguments hroom hfound hstacked hloaded.left
  have hlength : (found.val.map Instruction.push).length = arguments.length := by
    rw [List.length_map, found.property, List.length_reverse]
  have hcall := hloaded.right
  rw [hlength, ← hcalled] at hcall
  refine ⟨called, hruns, hcall 0 _ rfl, hpassed, ?_⟩
  intro returned hposition htop hkept
  have hbottom : Stacked base (frame.size + 4 * arguments.length) returned :=
    ⟨hkept.base.trans hdeep.bottom, htop.trans hdeep.top⟩
  obtain ⟨last, hreturns, hlast, hstored⟩ :=
    runs_result (by omega) hslot hbottom (hposition ▸ hcall.tail)
  have hslots := hpassed.slots.trans hkept
  refine ⟨_, last, hreturns, ?_, hstored.base.trans hslots.base, hstored.top, hstored.stored, ?_⟩
  · rw [hlast, hposition, hcalled, List.length_append, hlength]
    simp only [List.cons_append, List.length_cons, List.length_append, List.length_nil]
    omega
  · intro name other hname hother
    exact (hstored.others name other hname hother).trans (hslots.slots name other hother)

/-- Every call outside the program follows the calling convention, wherever its lines stand.  The
host may do what it likes, as long as it keeps the stack, the frame and the variables in it. -/
theorem external_calls_follow_convention (builtins : Builtins) (code : List Command)
    (routine : Routine) (hroutine : Routine.ofCommands builtins code = .ok routine)
    (destination function : String) (arguments : List Value)
    (hmem : .call destination function arguments ∈ code)
    (hrecipe : builtins.recipe? function = none)
    (hfunction : isIdentifier function.toList = true)
    (hroom : (Frame.ofCommands code).size + 4 * arguments.length < 0x80000000) :
    ∃ block, emit builtins (Frame.ofCommands code) (.call destination function arguments) =
        .ok (block.map .instruction) ∧
      block.map .instruction <:+: routine.lines ∧
      ∀ (before after : List String) (state : State),
        let program := Program.ofListing (before ++ blockLines block ++ after)
        state.position = instructionCount before →
        state.get .esp = state.get .ebp - Int32.ofInt (Frame.ofCommands code).size →
        ∃ called, Runs program arguments.length state called ∧
          program.code[called.position]? = some (.run (.call function)) ∧
          ArgumentsPassed (Frame.ofCommands code) arguments state called ∧
          ∀ returned : State, returned.position = called.position + 1 →
            returned.get .esp = called.get .esp →
            SlotsKept (Frame.ofCommands code) called returned →
            ∃ count last, Runs program count returned last ∧
              last.position = instructionCount (before ++ blockLines block) ∧
              ResultStored (Frame.ofCommands code) destination (returned.get .eax) state last := by
  obtain ⟨emitted, hemitted, hlines⟩ := bind_eq_ok.1 hroutine
  obtain rfl := Except.ok.inj hlines
  obtain ⟨position, hcommand⟩ := List.mem_iff_getElem?.1 hmem
  obtain ⟨left, chunk, right, -, -, hchunk, rfl⟩ := emitted_split hemitted hcommand
  have hsound := isSoundBlock_routine hrecipe hfunction (by simp only [wordSize]; omega) hchunk
  obtain ⟨found, slot, hfound, hslot, rfl⟩ := emit_routine hrecipe hchunk
  refine ⟨callBlock found.val function arguments.length slot, hchunk,
    ⟨(prologue (Frame.ofCommands code)).map .instruction ++ left,
      right ++ epilogue.map .instruction, by simp only [callBlock, List.append_assoc]⟩, ?_⟩
  intro before after state program hposition htop
  have hblock : ∀ instruction ∈ callBlock found.val function arguments.length slot,
      IsSound (Frame.ofCommands code) instruction := hsound.isSound
  have hreadable := isReadable_map fun instruction hmem => (hblock instruction hmem).target
  rw [← instructionsOf_map (callBlock found.val function arguments.length slot)] at hblock
  have hloaded := loaded_between before after hreadable fun instruction hmem =>
    (hblock instruction hmem).fits (by omega)
  rw [instructionCount_append, blockLines, instructionCount_of_readable hreadable, ← hposition]
  rw [instructionsOf_map] at hloaded ⊢
  exact runs_call hroom hfound hslot ⟨rfl, htop⟩ (hposition ▸ hloaded)

/-- Code that passes a variable, a number and the variable that the result goes to. -/
def blending : List Command :=
  [.copy "x" (.constant 7), .call "y" "blend" [.variable "x", .constant 2, .variable "y"]]

/-- A state inside the frame of the code. -/
def blendingState : State where
  position := 0
  registers := ⟨0, 0, 0, 0, 92, 100⟩
  compared := (0, 0)
  memory := Memory.zero.write 96 7
  input := []
  output := #[]

theorem external_calls_follow_convention_blending :
    ∃ routine, Routine.ofCommands .operators blending = .ok routine ∧
      Command.call "y" "blend" [.variable "x", .constant 2, .variable "y"] ∈ blending ∧
      Builtins.operators.recipe? "blend" = none ∧ isIdentifier "blend".toList = true ∧
      (Frame.ofCommands blending).size + 4 * 3 < 0x80000000 ∧
      blendingState.position = instructionCount ["here:"] ∧
      blendingState.get .esp =
        blendingState.get .ebp - Int32.ofInt (Frame.ofCommands blending).size ∧
      ∃ block called, block.map .instruction <:+: routine.lines ∧
        Runs (Program.ofListing (["here:"] ++ blockLines block ++ ["ret"])) 3 blendingState called ∧
        called.read (.memory 0 .esp) = 7 ∧ called.read (.memory 4 .esp) = 2 := by
  have hmem : Command.call "y" "blend" [.variable "x", .constant 2, .variable "y"] ∈ blending := by
    decide
  refine ⟨_, rfl, hmem, rfl, by decide, by decide, rfl, rfl, ?_⟩
  obtain ⟨block, -, hlines, hcalls⟩ := external_calls_follow_convention .operators blending _ rfl
    _ _ _ hmem rfl (by decide) (by decide)
  obtain ⟨called, hruns, -, hpassed, -⟩ := hcalls ["here:"] ["ret"] blendingState rfl rfl
  obtain ⟨first, hfirst, hx⟩ := hpassed.words 0 _ rfl
  obtain ⟨second, hsecond, htwo⟩ := hpassed.words 1 _ rfl
  obtain rfl := Except.ok.inj hfirst
  obtain rfl := Except.ok.inj hsecond
  exact ⟨block, called, hlines, hruns, hx, htwo⟩

end Machine

end WhileCompiler
