import WhileCompiler.Proofs.Machine.Execution

/-!
# Where an instruction leads

All that an instruction can do to a running machine, with what it takes to do it.  What is kept
along a run is told from this, without executing the instructions again.
-/

namespace WhileCompiler

open Asm

namespace Asm

namespace Instruction

variable {α β : Type}

/-- The operand that an instruction writes. -/
def written? : Instruction α → Option α
  | move _ destination | combine _ _ destination | negate destination | moveIf _ _ destination
  | pop destination => some destination
  | extendSign | divide _ | compare _ _ | jump _ | jumpIfEqual _ | jumpIfNotEqual _ | push _
  | call _ | ret | systemCall => none

/-- Whether an instruction only computes, and then goes on to the next one. -/
def isPlain : Instruction α → Bool
  | move _ _ | combine _ _ _ | negate _ | extendSign | divide _ | compare _ _ | moveIf _ _ _ => true
  | jump _ | jumpIfEqual _ | jumpIfNotEqual _ | push _ | pop _ | call _ | ret | systemCall => false

theorem written?_map (f : α → β) (instruction : Instruction α) :
    (instruction.map f).written? = instruction.written?.map f := by
  cases instruction <;> rfl

theorem isPlain_map (f : α → β) (instruction : Instruction α) :
    (instruction.map f).isPlain = instruction.isPlain := by
  cases instruction <;> rfl

end Instruction

end Asm

namespace Machine

variable {program : Program} {state last : State} {instruction : Instruction Operand}

/-! ## Parts of instructions -/

theorem ofExcept_eq_running {result : Except Fault State}
    (hrunning : Progress.ofExcept result = .running last) : result = .ok last := by
  cases result with
  | error reason => cases hrunning
  | ok state => exact congrArg _ (Progress.running.inj hrunning)

theorem exists_of_divide {divisor : Int32} (hdivide : state.divide divisor = .ok last) :
    ∃ quotient remainder, last = (state.set .eax quotient).set .edx remainder := by
  rw [State.divide] at hdivide
  split at hdivide
  · cases hdivide
  · dsimp only at hdivide
    split at hdivide
    · cases hdivide
    · exact ⟨_, _, (Except.ok.inj hdivide).symm⟩

theorem exists_of_jump {label : String} (hjump : state.jump program label = .ok last) :
    ∃ position, program.position? label = some position ∧
      last = { state with position := position } := by
  rw [State.jump] at hjump
  split at hjump
  · next position hposition => exact ⟨position, hposition, (Except.ok.inj hjump).symm⟩
  · cases hjump

/-- The host prints the word on top of the stack, or reads a number. -/
theorem callHost_cases {symbol : String} (hcall : state.callHost symbol = .ok last) :
    symbol = "printInt" ∧ last = { state with
        output := state.output.push (state.memory.read (state.get .esp).toUInt32) } ∨
      symbol = "readInt" ∧ ∃ value rest, state.input = value :: rest ∧
        last = { state with input := rest }.set .eax value := by
  rw [State.callHost] at hcall
  split at hcall
  · next hprint => exact .inl ⟨hprint, (Except.ok.inj hcall).symm⟩
  · split at hcall
    · next hread =>
        split at hcall
        · cases hcall
        · next value rest hinput =>
            exact .inr ⟨hread, value, rest, hinput, (Except.ok.inj hcall).symm⟩
    · cases hcall

/-! ## Whole instructions -/

/-- What an instruction leads to, if the program is still running behind it. -/
inductive Leads (program : Program) (state : State) : Instruction Operand → State → Prop
  | computes {instruction : Instruction Operand} {last : State} :
      instruction.isPlain = true → last.position = state.position → SameFrame state last →
      Leads program state instruction last
  | writes {instruction : Instruction Operand} {destination : Operand} {value : Int32}
      {last : State} :
      instruction.isPlain = true → instruction.written? = some destination →
      state.write destination value = .ok last → Leads program state instruction last
  | pushes {source : Operand} :
      Leads program state (.push source) (state.push (state.read source))
  | pops {destination : Operand} {last : State} :
      state.pop.2.write destination state.pop.1 = .ok last →
      Leads program state (.pop destination) last
  /-- The condition of a jump does not hold. -/
  | passes {instruction : Instruction Operand} (label : String) :
      instruction ∈ [.jumpIfEqual label, .jumpIfNotEqual label] →
      Leads program state instruction state
  | jumps {instruction : Instruction Operand} {label : String} {position : Nat} :
      instruction ∈ [.jump label, .jumpIfEqual label, .jumpIfNotEqual label] →
      program.position? label = some position →
      Leads program state instruction { state with position := position }
  | calls {target : String} {position : Nat} :
      program.position? target = some position →
      Leads program state (.call target)
        { state.push (Int32.ofInt state.position) with position := position }
  | callsHost {target : String} {last : State} :
      program.position? target = none → state.callHost target = .ok last →
      Leads program state (.call target) last
  | returns : Leads program state .ret state.ret

/-- These are all the ways in which an instruction can leave the program running. -/
theorem leads_of_execute (hexecute : state.execute program instruction = .running last) :
    Leads program state instruction last := by
  cases instruction with
  | move source destination | combine operation source destination | negate destination =>
      exact .writes rfl rfl (ofExcept_eq_running hexecute)
  | extendSign | compare source destination =>
      obtain rfl := Progress.running.inj hexecute
      exact .computes rfl rfl ⟨rfl, rfl, rfl, rfl, rfl⟩
  | divide divisor =>
      obtain ⟨quotient, remainder, rfl⟩ := exists_of_divide (ofExcept_eq_running hexecute)
      exact .computes rfl rfl ⟨rfl, rfl, rfl, rfl, rfl⟩
  | moveIf condition source destination =>
      rw [State.execute] at hexecute
      split at hexecute
      · exact .writes rfl rfl (ofExcept_eq_running hexecute)
      · obtain rfl := Progress.running.inj hexecute
        exact .computes rfl rfl ⟨rfl, rfl, rfl, rfl, rfl⟩
  | jump label =>
      obtain ⟨position, hposition, rfl⟩ := exists_of_jump (ofExcept_eq_running hexecute)
      exact .jumps (by simp) hposition
  | jumpIfEqual label | jumpIfNotEqual label =>
      rw [State.execute] at hexecute
      split at hexecute
      · obtain ⟨position, hposition, rfl⟩ := exists_of_jump (ofExcept_eq_running hexecute)
        exact .jumps (by simp) hposition
      · obtain rfl := Progress.running.inj hexecute
        exact .passes label (by simp)
  | push source =>
      obtain rfl := Progress.running.inj hexecute
      exact .pushes
  | pop destination => exact .pops (ofExcept_eq_running hexecute)
  | call target =>
      have hcall := ofExcept_eq_running hexecute
      rw [State.call] at hcall
      split at hcall
      · next position hposition =>
          obtain rfl := Except.ok.inj hcall
          exact .calls hposition
      · next hposition => exact .callsHost hposition hcall
  | ret =>
      obtain rfl := Progress.running.inj hexecute
      exact .returns
  | systemCall =>
      rw [State.execute] at hexecute
      split at hexecute <;> cases hexecute

/-- A step executes an instruction, or passes a conditional move that could not be read. -/
theorem step_cases (hstep : state.step program = .running last) :
    (∃ instruction, program.code[state.position]? = some (.run instruction) ∧
      Leads program state.next instruction last) ∨
    ∃ condition reason, program.code[state.position]? = some (.faultIf condition reason) ∧
      last = state.next := by
  rw [State.step] at hstep
  split at hstep
  · cases hstep
  · next instruction hcode => exact .inl ⟨instruction, hcode, leads_of_execute hstep⟩
  · cases hstep
  · next condition reason hcode =>
      split at hstep
      · cases hstep
      · exact .inr ⟨condition, reason, hcode, (Progress.running.inj hstep).symm⟩

end Machine

end WhileCompiler
