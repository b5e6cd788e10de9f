import WhileCompiler.Proofs.Machine.StackDepth

/-!
# The stack during a run

Wherever jumps lead, the words on the stack are those that the code at the current position accounts
for, and nothing is written but the words of the variables and of arguments below them.  So the
routine finds the return address and the base of its caller where it has left them, and returns to
where it was called.
-/

namespace WhileCompiler

open Asm Ir Text

namespace Machine

variable {frame : Frame} {program : Program} {opened state last : State} {base : Int32}
  {depth most words start : Nat} {targets hosts : String → Prop} {body : List (Instruction Operand)}

/-! ## The words that may be written -/

/-- A word of the frame, or one of the words below it that arguments are pushed to. -/
def IsFrameWord (base : Int32) (words : Nat) (address : UInt32) : Prop :=
  ∃ index : Nat, 0 < index ∧ index ≤ words ∧ address = wordBelow base ↑(wordSize * index)

/-- No other words have been written. -/
def KeptOutside (base : Int32) (words : Nat) (before after : State) : Prop :=
  ∀ address, ¬ IsFrameWord base words address →
    after.memory.read address = before.memory.read address

theorem KeptOutside.refl : KeptOutside base words state state :=
  fun _ _ => rfl

theorem KeptOutside.same (hkept : KeptOutside base words opened state)
    (hmemory : last.memory = state.memory) : KeptOutside base words opened last :=
  fun address haddress => hmemory ▸ hkept address haddress

theorem KeptOutside.write {address : UInt32} {value : Int32}
    (hkept : KeptOutside base words opened state) (haddress : IsFrameWord base words address)
    (hmemory : last.memory = state.memory.write address value) :
    KeptOutside base words opened last := by
  intro other hother
  rw [hmemory, Memory.read_write, if_neg, hkept other hother]
  rintro rfl
  exact hother haddress

/-- The base itself and what lies above it are not words of the frame. -/
theorem not_isFrameWord (hroom : wordSize * words < 0x80000000) {distance : Int}
    (habove : distance ≤ 0) (hnear : -0x80000000 ≤ distance) :
    ¬ IsFrameWord base words (wordBelow base distance) := by
  rintro ⟨index, hpos, hle, heq⟩
  simp only [wordSize] at hroom heq
  have hsame := wordBelow_inj (by omega) (by omega) heq
  omega

theorem isFrameWord_slot {name : String} {offset : Nat} (hoffset : frame.offset? name = some offset)
    (hwords : frame.names.length ≤ words) : IsFrameWord base words (wordBelow base offset) := by
  obtain ⟨index, hindex, rfl⟩ := Option.map_eq_some_iff.1 hoffset
  obtain ⟨hlt, -, -⟩ := List.idxOf?_eq_some_iff.1 hindex
  exact ⟨index + 1, Nat.succ_pos index, Nat.le_trans hlt hwords, rfl⟩

theorem isFrameWord_pushed (hdeeper : depth < most) :
    IsFrameWord base (frame.names.length + most)
      (wordBelow base ↑(frame.size + 4 * depth + 4)) := by
  have hdistance : frame.size + 4 * depth + 4 = wordSize * (frame.names.length + depth + 1) := by
    rw [Frame.size, wordSize]
    omega
  rw [hdistance]
  exact ⟨_, Nat.succ_pos _, by omega, rfl⟩

/-! ## Instructions that compute -/

/-- The stack is as it was, and at most the word of a variable has been written. -/
structure Computed (frame : Frame) (base : Int32) (depth : Nat) (state last : State) : Prop where
  position : last.position = state.position
  stacked : Stacked base depth last
  memory : last.memory = state.memory ∨ ∃ name offset value,
    frame.offset? name = some offset ∧
      last.memory = state.memory.write (wordBelow base offset) value

theorem Computed.keptOutside (hcomputed : Computed frame base depth state last)
    (hwords : frame.names.length ≤ words) (hkept : KeptOutside base words opened state) :
    KeptOutside base words opened last := by
  rcases hcomputed.memory with hsame | ⟨name, offset, value, hoffset, hwritten⟩
  · exact hkept.same hsame
  · exact hkept.write (isFrameWord_slot hoffset hwords) hwritten

theorem computed_write {destination : Operand} {value : Int32}
    (hlocal : IsLocal frame destination) (hstacked : Stacked base depth state)
    (hwrite : state.write destination value = .ok last) :
    Computed frame base depth state last := by
  rcases hlocal with hregister | ⟨name, hslot⟩
  · simp only [List.mem_cons, List.not_mem_nil, or_false] at hregister
    rcases hregister with rfl | rfl | rfl <;> obtain rfl := Except.ok.inj hwrite <;>
      exact ⟨rfl, ⟨hstacked.bottom, hstacked.top⟩, .inl rfl⟩
  · obtain ⟨offset, hoffset, rfl⟩ := slot_eq hslot
    obtain rfl := Except.ok.inj hwrite
    refine ⟨rfl, ⟨hstacked.bottom, hstacked.top⟩, .inr ⟨name, offset, value, hoffset, ?_⟩⟩
    rw [← hstacked.address_slot]

theorem computed_execute {instruction : Instruction Operand}
    (hcomputing : IsComputing frame instruction) (hstacked : Stacked base depth state)
    (hexecute : state.execute program instruction = .running last) :
    Computed frame base depth state last := by
  have hplain := hcomputing.plain
  cases leads_of_execute hexecute with
  | computes _ hposition hsame =>
      exact ⟨hposition, ⟨hsame.base.trans hstacked.bottom, hsame.top.trans hstacked.top⟩,
        .inl hsame.memory⟩
  | writes _ hwritten hwrite => exact computed_write (hcomputing.written _ hwritten) hstacked hwrite
  | passes _ hjump | jumps hjump _ =>
      simp only [List.mem_cons, List.not_mem_nil, or_false] at hjump
      rcases hjump with rfl | rfl | rfl <;> cases hplain
  | pushes | pops _ | calls _ | callsHost _ _ | returns => cases hplain

/-- What the host does when it is called leaves the stack alone. -/
theorem computed_callHost {symbol : String} (hstacked : Stacked base depth state)
    (hcall : state.callHost symbol = .ok last) : Computed frame base depth state last := by
  rcases callHost_cases hcall with ⟨-, rfl⟩ | ⟨-, value, rest, -, rfl⟩
  · exact ⟨rfl, ⟨hstacked.bottom, hstacked.top⟩, .inl rfl⟩
  · exact ⟨rfl, ⟨hstacked.bottom, hstacked.top⟩, .inl rfl⟩

/-- A jump goes to its target, or on to the next instruction. -/
theorem execute_jump {instruction : Instruction Operand} {target : String}
    (hjump : instruction ∈ [.jump target, .jumpIfEqual target, .jumpIfNotEqual target])
    (hexecute : state.execute program instruction = .running last) :
    last = state ∨ ∃ position, program.position? target = some position ∧
      last = { state with position := position } := by
  simp only [List.mem_cons, List.not_mem_nil, or_false] at hjump
  rcases hjump with rfl | rfl | rfl
  · exact .inr (exists_of_jump (ofExcept_eq_running hexecute))
  · rw [State.execute] at hexecute
    split at hexecute
    · exact .inr (exists_of_jump (ofExcept_eq_running hexecute))
    · exact .inl (Progress.running.inj hexecute).symm
  · rw [State.execute] at hexecute
    split at hexecute
    · exact .inr (exists_of_jump (ofExcept_eq_running hexecute))
    · exact .inl (Progress.running.inj hexecute).symm

/-! ## Phases of a routine -/

/-- A position in the body of a routine, with the instructions that follow it there. -/
structure Before (start : Nat) (body right : List (Instruction Operand)) (position : Nat) :
    Prop where
  suffix : right <:+ body
  position : position + right.length = start + body.length

theorem Before.tail {instruction : Instruction Operand} {right : List (Instruction Operand)}
    {position : Nat} (hbefore : Before start body (instruction :: right) position) :
    Before start body right (position + 1) where
  suffix := (List.suffix_cons _ _).trans hbefore.suffix
  position := by
    rw [← hbefore.position, List.length_cons]
    omega

theorem Before.unique {right other : List (Instruction Operand)} {position : Nat}
    (hbefore : Before start body right position) (hother : Before start body other position) :
    right = other := by
  have hfirst := hbefore.position
  have hsecond := hother.position
  have hlength : right.length = other.length := by omega
  have hsuffix := List.suffix_of_suffix_length_le hbefore.suffix hother.suffix
    (Nat.le_of_eq hlength)
  exact hsuffix.eq_of_length hlength

theorem Before.loaded {right after : List (Instruction Operand)} {position : Nat}
    (hbefore : Before start body right position) (hbody : Loaded program start (body ++ after)) :
    Loaded program position (right ++ after) := by
  obtain ⟨left, rfl⟩ := hbefore.suffix
  have hposition := hbefore.position
  rw [List.length_append] at hposition
  obtain rfl : position = start + left.length := by omega
  rw [List.append_assoc] at hbody
  exact hbody.right

/-- A routine whose instructions keep the stack, in memory behind a shell that calls it. -/
structure IsEnclosed (frame : Frame) (most : Nat) (targets hosts : String → Prop) (start : Nat)
    (body : List (Instruction Operand)) (program : Program) : Prop where
  shell : Loaded program 0 shellBlock
  loaded : Loaded program start (body ++ epilogue)
  targets : ∀ name position, targets name → program.position? name = some position →
    ∃ right, Before start body right position ∧ Balanced frame most targets hosts 0 right
  hosts : ∀ name, hosts name → program.position? name = none
  room : wordSize * (frame.names.length + most) < 0x80000000

/-- Where a run is after the routine has been entered, and what is on the stack there. -/
inductive Phase (frame : Frame) (most : Nat) (targets hosts : String → Prop) (start : Nat)
    (body : List (Instruction Operand)) (state : State) : Prop
  | inside {right : List (Instruction Operand)} {depth : Nat} :
      Before start body right state.position → Balanced frame most targets hosts depth right →
      Stacked frameBase (frame.size + 4 * depth) state →
      Phase frame most targets hosts start body state
  /-- The frame has been given back. -/
  | released : state.position = start + body.length + 1 → state.get .esp = frameBase →
      Phase frame most targets hosts start body state
  | restored : state.position = start + body.length + 2 → state.get .esp = frameBase + 4 →
      state.get .ebp = 0 → Phase frame most targets hosts start body state
  | returned : 0 < state.position → state.position < 4 → state.get .esp = State.stackTop →
      state.get .ebp = 0 → Phase frame most targets hosts start body state

theorem Stacked.next (hstacked : Stacked base depth state) : Stacked base depth state.next :=
  ⟨hstacked.bottom, hstacked.top⟩

/-- The run goes on inside the routine. -/
theorem Phase.of_computed {instruction : Instruction Operand} {right : List (Instruction Operand)}
    (hbefore : Before start body (instruction :: right) state.position)
    (hrest : Balanced frame most targets hosts depth right)
    (hcomputed : Computed frame frameBase (frame.size + 4 * depth) state.next last) :
    Phase frame most targets hosts start body last := by
  refine .inside ?_ hrest hcomputed.stacked
  rw [hcomputed.position]
  exact hbefore.tail

section

variable (hprogram : IsEnclosed frame most targets hosts start body program)
  (hkept : KeptOutside frameBase (frame.names.length + most) opened state)
  (hstep : state.step program = .running last)

include hprogram hkept hstep

/-- One instruction of a command, for each of the ways in which it can treat the stack. -/
theorem Phase.step_inside {right : List (Instruction Operand)}
    (hbefore : Before start body right state.position)
    (hbalanced : Balanced frame most targets hosts depth right)
    (hstacked : Stacked frameBase (frame.size + 4 * depth) state) :
    Phase frame most targets hosts start body last ∧
      KeptOutside frameBase (frame.names.length + most) opened last := by
  have hwords : frame.names.length ≤ frame.names.length + most := Nat.le_add_right _ _
  have hloaded := hbefore.loaded hprogram.loaded
  cases hbalanced with
  | nil =>
      obtain rfl := Progress.running.inj (hloaded.step.symm.trans hstep)
      exact ⟨.released (congrArg (· + 1) hbefore.position) hstacked.bottom, hkept.same rfl⟩
  | compute hcomputing hrest =>
      have hcomputed := computed_execute hcomputing hstacked.next (hloaded.step.symm.trans hstep)
      exact ⟨.of_computed hbefore hrest hcomputed, hcomputed.keptOutside hwords hkept⟩
  | @push _ source rest hdeeper hrest =>
      obtain rfl := Progress.running.inj (hloaded.step.symm.trans hstep)
      obtain ⟨hpushed, hmemory⟩ := stacked_push hstacked.next (state.next.read source)
      exact ⟨.inside hbefore.tail hrest hpushed, hkept.write (isFrameWord_pushed hdeeper) hmemory⟩
  | @release depth count rest hrest =>
      obtain rfl := Progress.running.inj (hloaded.step.symm.trans hstep)
      rw [Nat.mul_add, ← Nat.add_assoc] at hstacked
      exact ⟨.inside hbefore.tail hrest ⟨hstacked.bottom, hstacked.top_add⟩, hkept.same rfl⟩
  | @call _ function rest hhost hrest =>
      have hexecute := hloaded.step.symm.trans hstep
      simp only [State.execute, State.call, hprogram.hosts function hhost] at hexecute
      have hcomputed : Computed frame _ _ _ _ :=
        computed_callHost hstacked.next (ofExcept_eq_running hexecute)
      exact ⟨.of_computed hbefore hrest hcomputed, hcomputed.keptOutside hwords hkept⟩
  | @jump target _ rest hjump htarget hrest =>
      rcases execute_jump hjump (hloaded.step.symm.trans hstep) with
        rfl | ⟨position, hposition, rfl⟩
      · exact ⟨.inside hbefore.tail hrest hstacked.next, hkept.same rfl⟩
      -- Labels stand between commands, where no word lies below the frame.
      · obtain ⟨right, hplace, hbalanced⟩ := hprogram.targets target position htarget hposition
        exact ⟨.inside hplace hbalanced ⟨hstacked.bottom, hstacked.top⟩, hkept.same rfl⟩

end

theorem IsEnclosed.loaded_epilogue
    (hprogram : IsEnclosed frame most targets hosts start body program) :
    Loaded program (start + body.length) epilogue :=
  hprogram.loaded.right

theorem IsEnclosed.loaded_shell
    (hprogram : IsEnclosed frame most targets hosts start body program) (position : Nat) :
    Loaded program position (shellBlock.drop position) := by
  have hshell := hprogram.shell.drop position
  rwa [Nat.zero_add] at hshell

/-- The caller's base and the return address are where they were put. -/
theorem KeptOutside.read_wordAt (hkept : KeptOutside frameBase words opened state)
    (hroom : wordSize * words < 0x80000000) {distance : Int}
    (habove : distance ≤ 0) (hnear : -0x80000000 ≤ distance) :
    state.memory.read (wordAt distance) = opened.memory.read (wordAt distance) :=
  hkept _ (not_isFrameWord hroom habove hnear)

section

variable (hprogram : IsEnclosed frame most targets hosts start body program)
  (hmemory : opened.memory = openingMemory)

include hprogram hmemory

/-- The routine gets the base of its caller back. -/
theorem step_released (hposition : state.position = start + body.length + 1)
    (htop : state.get .esp = frameBase)
    (hkept : KeptOutside frameBase (frame.names.length + most) opened state) :
    ∃ last, state.step program = .running last ∧
      last.position = start + body.length + 2 ∧ last.get .esp = frameBase + 4 ∧
      last.get .ebp = 0 ∧ last.memory = state.memory := by
  have hloaded : Loaded program state.position [.pop (.register .ebp), .ret] :=
    hposition ▸ hprogram.loaded_epilogue.tail
  have hsaved : state.memory.read (state.get .esp).toUInt32 = 0 := by
    rw [htop, toUInt32_frameBase, hkept.read_wordAt hprogram.room (by decide) (by decide), hmemory,
      openingMemory_savedBase]
  exact ⟨_, hloaded.step, congrArg (· + 1) hposition, congrArg (· + 4) htop, hsaved, rfl⟩

/-- The routine returns behind the call of the shell. -/
theorem step_restored (hposition : state.position = start + body.length + 2)
    (htop : state.get .esp = frameBase + 4) (hbase : state.get .ebp = 0)
    (hkept : KeptOutside frameBase (frame.names.length + most) opened state) :
    ∃ last, state.step program = .running last ∧ last.position = 1 ∧
      last.get .esp = State.stackTop ∧ last.get .ebp = 0 ∧ last.memory = state.memory := by
  have hloaded : Loaded program state.position [.ret] :=
    hposition ▸ hprogram.loaded_epilogue.tail.tail
  have hreturn : state.memory.read (state.get .esp).toUInt32 = 1 := by
    rw [htop, toUInt32_frameBase_add, hkept.read_wordAt hprogram.room (by decide) (by decide),
      hmemory, openingMemory_returnAddress]
  refine ⟨_, hloaded.step, ?_, congrArg (· + 4) htop, hbase, rfl⟩
  exact congrArg (fun address => address.toInt64.toUInt64.toNat) hreturn

omit hmemory in
/-- Behind the call, the shell ends the program. -/
theorem step_returned (hpos : 0 < state.position) (hlt : state.position < 4)
    (htop : state.get .esp = State.stackTop) (hbase : state.get .ebp = 0)
    (hstep : state.step program = .running last) :
    Phase frame most targets hosts start body last ∧ last.memory = state.memory := by
  have hloaded {index : Nat} (hposition : state.position = index) :
      Loaded program state.position (shellBlock.drop index) :=
    hposition ▸ hprogram.loaded_shell state.position
  obtain hone | htwo | hthree : state.position = 1 ∨ state.position = 2 ∨ state.position = 3 := by
    omega
  · obtain rfl := Progress.running.inj ((hloaded hone).step.symm.trans hstep)
    have hnext : state.position + 1 < 4 := by omega
    exact ⟨.returned (Nat.succ_pos _) hnext htop hbase, rfl⟩
  · obtain rfl := Progress.running.inj ((hloaded htwo).step.symm.trans hstep)
    have hnext : state.position + 1 < 4 := by omega
    exact ⟨.returned (Nat.succ_pos _) hnext htop hbase, rfl⟩
  · have hexecute := (hloaded hthree).step.symm.trans hstep
    rw [State.execute] at hexecute
    split at hexecute
    · cases hexecute
    · cases hexecute

/-- Only the end of the routine returns, and then to the shell. -/
theorem Phase.step_ret (hphase : Phase frame most targets hosts start body state)
    (hkept : KeptOutside frameBase (frame.names.length + most) opened state)
    (hret : program.code[state.position]? = some (.run .ret)) :
    ∃ last, state.step program = .running last ∧ last.position = 1 ∧
      last.get .esp = State.stackTop ∧ last.get .ebp = 0 := by
  have hcurrent {instruction : Instruction Operand} {after : List (Instruction Operand)}
      (hloaded : Loaded program state.position (instruction :: after)) : instruction = .ret :=
    Cell.run.inj (Option.some.inj (hloaded.head.symm.trans hret))
  cases hphase with
  | @inside right _ hbefore hbalanced hstacked =>
      have hloaded := hbefore.loaded hprogram.loaded
      cases right with
      | nil => cases hcurrent hloaded
      | cons first rest => exact absurd (hcurrent hloaded) hbalanced.ne_ret
  | released hposition htop =>
      have hloaded := hprogram.loaded_epilogue.tail
      rw [← hposition] at hloaded
      cases hcurrent hloaded
  | restored hposition htop hbase =>
      obtain ⟨last, hstep, hplace, hreturned, hcaller, -⟩ :=
        step_restored hprogram hmemory hposition htop hbase hkept
      exact ⟨last, hstep, hplace, hreturned, hcaller⟩
  | returned hpos hlt htop hbase =>
      have hloaded := hprogram.loaded_shell state.position
      generalize state.position = position at *
      obtain rfl | rfl | rfl : position = 1 ∨ position = 2 ∨ position = 3 := by omega
      · cases hcurrent hloaded
      · cases hcurrent hloaded
      · cases hcurrent hloaded

/-- A step stays within the phases of the routine and writes inside its own part of the stack. -/
theorem Phase.step (hphase : Phase frame most targets hosts start body state)
    (hkept : KeptOutside frameBase (frame.names.length + most) opened state)
    (hstep : state.step program = .running last) :
    Phase frame most targets hosts start body last ∧
      KeptOutside frameBase (frame.names.length + most) opened last := by
  cases hphase with
  | inside hbefore hbalanced hstacked =>
      exact Phase.step_inside hprogram hkept hstep hbefore hbalanced hstacked
  | released hposition htop =>
      obtain ⟨next, hnext, hplace, hrestored, hbase, hsame⟩ :=
        step_released hprogram hmemory hposition htop hkept
      obtain rfl := Progress.running.inj (hnext.symm.trans hstep)
      exact ⟨.restored hplace hrestored hbase, hkept.same hsame⟩
  | restored hposition htop hbase =>
      obtain ⟨next, hnext, hplace, hreturned, hcaller, hsame⟩ :=
        step_restored hprogram hmemory hposition htop hbase hkept
      obtain rfl := Progress.running.inj (hnext.symm.trans hstep)
      exact ⟨.returned (hplace ▸ by decide) (hplace ▸ by decide) hreturned hcaller,
        hkept.same hsame⟩
  | returned hpos hlt htop hbase =>
      obtain ⟨hnext, hsame⟩ := step_returned hprogram hpos hlt htop hbase hstep
      exact ⟨hnext, hkept.same hsame⟩

theorem Phase.runs {count : Nat} (hruns : Runs program count state last)
    (hphase : Phase frame most targets hosts start body state)
    (hkept : KeptOutside frameBase (frame.names.length + most) opened state) :
    Phase frame most targets hosts start body last ∧
      KeptOutside frameBase (frame.names.length + most) opened last := by
  induction hruns with
  | refl => exact ⟨hphase, hkept⟩
  | step hstep _ ih =>
      obtain ⟨hnext, hsame⟩ := hphase.step hprogram hmemory hkept hstep
      exact ih hnext hsame

end

end Machine

end WhileCompiler
