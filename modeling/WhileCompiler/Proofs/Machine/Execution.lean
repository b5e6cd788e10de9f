import WhileCompiler.Machine.Run
import WhileCompiler.Proofs.Machine.Layout
import WhileCompiler.Semantics.Calls

/-!
# Running instructions of loaded programs

Instructions that stand one behind the other are executed in this order.  The instructions of each
operator leave its result in the accumulator, or divide by zero where the operator does, and touch
nothing but registers that no variable lives in.
-/

namespace WhileCompiler

open Asm Semantics

namespace Machine

variable {program : Program} {state middle last : State} {count more : Nat}

/-! ## Several steps -/

/-- A number of steps, after each of which the program is still running. -/
inductive Runs (program : Program) : Nat → State → State → Prop
  | refl {state : State} : Runs program 0 state state
  | step {count : Nat} {state next last : State} :
      state.step program = .running next → Runs program count next last →
      Runs program (count + 1) state last

theorem Runs.single (hstep : state.step program = .running last) : Runs program 1 state last :=
  .step hstep .refl

theorem Runs.trans (hfirst : Runs program count state middle)
    (hsecond : Runs program more middle last) : Runs program (count + more) state last := by
  induction hfirst with
  | refl => rwa [Nat.zero_add]
  | step hstep _ ih =>
      rw [Nat.add_right_comm]
      exact .step hstep (ih hsecond)

theorem ne_running_of_failed {reason : Fault} (hstep : state.step program = .failed reason)
    (next : State) : state.step program ≠ .running next := by
  rw [hstep]
  exact nofun

/-- Two runs from one state that both cannot go on have come to the same state. -/
theorem Runs.eq_of_stuck (hfirst : Runs program count state middle)
    (hsecond : Runs program more state last)
    (hmiddle : ∀ next, middle.step program ≠ .running next)
    (hlast : ∀ next, last.step program ≠ .running next) : middle = last := by
  induction hfirst generalizing more with
  | refl =>
      cases hsecond with
      | refl => rfl
      | step hstep _ => exact absurd hstep (hmiddle _)
  | step hstep _ ih =>
      cases hsecond with
      | refl => exact absurd hstep (hlast _)
      | step hother hrest =>
          rw [hstep] at hother
          cases hother
          exact ih hrest hmiddle

theorem Runs.run_eq (hruns : Runs program count state last) (more : Nat) :
    state.run program (count + more) = last.run program more := by
  induction hruns with
  | refl => rw [Nat.zero_add]
  | step hstep _ ih =>
      rw [← ih, Nat.add_right_comm, State.run, hstep]

/-- A run that is cut off within steps that are known. -/
theorem Runs.run_of_le (hruns : Runs program count state last) {limit : Nat} (hle : limit ≤ count) :
    state.run program limit = .error .stepLimit := by
  induction hruns generalizing limit with
  | refl =>
      obtain rfl := Nat.le_zero.1 hle
      rfl
  | step hstep _ ih =>
      cases limit with
      | zero => rfl
      | succ limit =>
          rw [State.run, hstep]
          exact ih (by omega)

/-- What a run comes to stays its result if more steps are allowed. -/
theorem State.run_add {limit : Nat} (hreached : state.run program limit ≠ .error .stepLimit)
    (more : Nat) : state.run program (limit + more) = state.run program limit := by
  induction limit generalizing state with
  | zero => exact absurd rfl hreached
  | succ limit ih =>
      rw [Nat.add_right_comm, run, run]
      rw [run] at hreached
      cases hstep : state.step program with
      | running next =>
          rw [hstep] at hreached
          exact ih hreached
      | exited exit => rfl
      | failed fault => rfl

/-! ## Loaded instructions -/

/-- The state in which an instruction is executed. -/
def State.next (state : State) : State :=
  { state with position := state.position + 1 }

section

variable {block before after : List (Instruction Operand)} {instruction : Instruction Operand}
  {position : Nat}

theorem Loaded.left (hloaded : Loaded program position (before ++ after)) :
    Loaded program position before := by
  intro index instruction hinstruction
  apply hloaded
  have hindex : index < before.length := (List.getElem?_eq_some_iff.1 hinstruction).1
  rw [List.getElem?_append_left hindex, hinstruction]

theorem Loaded.right (hloaded : Loaded program position (before ++ after)) :
    Loaded program (position + before.length) after := by
  intro index instruction hinstruction
  rw [Nat.add_assoc]
  apply hloaded
  rw [List.getElem?_append_right (Nat.le_add_right _ _), Nat.add_sub_cancel_left, hinstruction]

theorem Loaded.drop {block : List (Instruction Operand)} (hloaded : Loaded program position block)
    (count : Nat) : Loaded program (position + count) (block.drop count) := by
  intro index instruction hinstruction
  rw [List.getElem?_drop] at hinstruction
  rw [Nat.add_assoc]
  exact hloaded _ _ hinstruction

theorem Loaded.tail (hloaded : Loaded program position (instruction :: after)) :
    Loaded program (position + 1) after := by
  have happend : Loaded program position ([instruction] ++ after) := hloaded
  exact happend.right

theorem Loaded.head (hloaded : Loaded program position (instruction :: after)) :
    program.code[position]? = some (.run instruction) := by
  have hcell := hloaded 0 instruction rfl
  rwa [Nat.add_zero] at hcell

theorem Loaded.step (hloaded : Loaded program state.position (instruction :: after)) :
    state.step program = state.next.execute program instruction := by
  rw [State.step, hloaded.head]
  rfl

end

theorem step_of_fault {reason : Fault}
    (hcell : program.code[state.position]? = some (.fault reason)) :
    state.step program = .failed reason := by
  rw [State.step, hcell]

/-! ## What a command may read and must keep -/

/-- Operands that stand for constants and variables. -/
def IsSource : Operand → Prop
  | .constant _ => True
  | .register _ => False
  | .memory _ base => base = .ebp

/-- Nothing has changed but registers that no command leaves a value in. -/
structure SameFrame (start last : State) : Prop where
  memory : last.memory = start.memory
  base : last.get .ebp = start.get .ebp
  top : last.get .esp = start.get .esp
  input : last.input = start.input
  output : last.output = start.output

theorem SameFrame.read_eq (hsame : SameFrame state last) {operand : Operand}
    (hsource : IsSource operand) : last.read operand = state.read operand := by
  cases operand with
  | constant value => rfl
  | register name => cases hsource
  | memory displacement base =>
      obtain rfl : base = .ebp := hsource
      simp only [State.read, State.address, hsame.memory, hsame.base]

/-- A block has been run, and its result is in the accumulator. -/
structure Evaluated (block : List (Instruction Operand)) (value : Int32) (start last : State) :
    Prop where
  position : last.position = start.position + block.length
  result : last.get .eax = value
  same : SameFrame start last

/-- Running a block comes to an end with a value in the accumulator. -/
def Evaluates (program : Program) (state : State) (block : List (Instruction Operand))
    (value : Int32) : Prop :=
  ∃ count last, 0 < count ∧ Runs program count state last ∧ Evaluated block value state last

theorem Loaded.runs {instruction : Instruction Operand} {after : List (Instruction Operand)}
    (hloaded : Loaded program state.position (instruction :: after))
    (hexecute : state.next.execute program instruction = .running last) :
    Runs program 1 state last :=
  .single (hloaded.step.trans hexecute)

/-! ## Operators -/

section

variable {left right operand : Operand}

theorem evaluates_combination {operation : Operation} (hleft : IsSource left)
    (hright : IsSource right)
    (hloaded : Loaded program state.position
      [.move left (.register .eax), .combine operation right (.register .eax)]) :
    Evaluates program state [.move left (.register .eax), .combine operation right (.register .eax)]
      (combined operation (state.read left) (state.read right)) := by
  refine ⟨2, _, by decide, (hloaded.runs rfl).trans (Loaded.runs hloaded.tail rfl), rfl, ?_, ?_⟩
  · have hfirst : SameFrame state state.next := ⟨rfl, rfl, rfl, rfl, rfl⟩
    have hsecond (value : Int32) : SameFrame state (state.next.set .eax value).next :=
      ⟨rfl, rfl, rfl, rfl, rfl⟩
    rw [← hfirst.read_eq hleft, ← (hsecond (state.next.read left)).read_eq hright]
    rfl
  · exact ⟨rfl, rfl, rfl, rfl, rfl⟩

theorem evaluates_negation (hoperand : IsSource operand)
    (hloaded : Loaded program state.position
      [.move operand (.register .eax), .negate (.register .eax)]) :
    Evaluates program state [.move operand (.register .eax), .negate (.register .eax)]
      (-state.read operand) := by
  refine ⟨2, _, by decide, (hloaded.runs rfl).trans (Loaded.runs hloaded.tail rfl), rfl, ?_, ?_⟩
  · have hfirst : SameFrame state state.next := ⟨rfl, rfl, rfl, rfl, rfl⟩
    rw [← hfirst.read_eq hoperand]
    rfl
  · exact ⟨rfl, rfl, rfl, rfl, rfl⟩

/-- The instructions of a comparison. -/
def comparison (condition : Condition) (left right : Operand) : List (Instruction Operand) :=
  [.move (.constant 0) (.register .eax), .move (.constant 1) (.register .edx),
    .move left (.register .ecx), .compare right (.register .ecx),
    .moveIf condition (.register .edx) (.register .eax)]

theorem evaluates_comparison {condition : Condition} (hleft : IsSource left)
    (hright : IsSource right)
    (hloaded : Loaded program state.position (comparison condition left right)) :
    Evaluates program state (comparison condition left right)
      (flag (holds condition (state.read left, state.read right))) := by
  obtain ⟨middle, hruns, hposition, hzero, hone, hcompared, hsame⟩ :
      ∃ middle, Runs program 4 state middle ∧ middle.position = state.position + 4 ∧
        middle.get .eax = 0 ∧ middle.get .edx = 1 ∧
        middle.compared = (state.read left, state.read right) ∧ SameFrame state middle := by
    have hthird : SameFrame state ((state.next.set .eax 0).next.set .edx 1).next :=
      ⟨rfl, rfl, rfl, rfl, rfl⟩
    have hfourth (value : Int32) :
        SameFrame state (((state.next.set .eax 0).next.set .edx 1).next.set .ecx value).next :=
      ⟨rfl, rfl, rfl, rfl, rfl⟩
    refine ⟨_, (((hloaded.runs rfl).trans (Loaded.runs hloaded.tail rfl)).trans
      (Loaded.runs hloaded.tail.tail rfl)).trans (Loaded.runs hloaded.tail.tail.tail rfl),
      rfl, rfl, rfl, ?_, ⟨rfl, rfl, rfl, rfl, rfl⟩⟩
    rw [← hthird.read_eq hleft, ← (hfourth _).read_eq hright]
    rfl
  have hlast : Loaded program middle.position
      [.moveIf condition (.register .edx) (.register .eax)] :=
    hposition ▸ hloaded.tail.tail.tail.tail
  have hexecute : middle.next.execute program
      (.moveIf condition (.register .edx) (.register .eax)) =
        if holds condition (state.read left, state.read right) then
          .running (middle.next.set .eax (middle.get .edx))
        else .running middle.next := by
    rw [← hcompared]
    rfl
  -- The accumulator holds zero, and the conditional move is to put the one there.
  cases hholds : holds condition (state.read left, state.read right) with
  | false =>
      rw [hholds] at hexecute
      refine ⟨5, middle.next, by decide, hruns.trans (hlast.runs hexecute), ?_, hzero, ?_⟩
      · exact congrArg (· + 1) hposition
      · exact ⟨hsame.memory, hsame.base, hsame.top, hsame.input, hsame.output⟩
  | true =>
      rw [hholds] at hexecute
      refine ⟨5, _, by decide, hruns.trans (hlast.runs hexecute), ?_, hone, ?_⟩
      · exact congrArg (· + 1) hposition
      · exact ⟨hsame.memory, hsame.base, hsame.top, hsame.input, hsame.output⟩

/-- The instructions of a division, whose quotient and remainder go to different registers. -/
def division (left right : Operand) : List (Instruction Operand) :=
  [.move left (.register .eax), .extendSign, .move right (.register .ecx),
    .divide (.register .ecx)]

/-- The sign and the low word together are the number, so that `idiv` divides what was meant. -/
theorem dividend_eq (value : Int32) :
    (if value < 0 then (-1 : Int32) else 0).toInt * 0x100000000 + value.toUInt32.toNat =
      value.toInt := by
  have hbits : value.toUInt32.toNat = value.toBitVec.toNat := rfl
  have hvalue : value.toInt = value.toBitVec.toInt := rfl
  have hsign : value < 0 ↔ value.toInt < (0 : Int32).toInt := Int32.lt_iff_toInt_lt
  have hlt := value.toBitVec.isLt
  rw [BitVec.toInt_eq_toNat_cond] at hvalue
  have hzero : (0 : Int32).toInt = 0 := rfl
  have hone : (-1 : Int32).toInt = -1 := rfl
  by_cases hneg : value < 0
  · rw [if_pos hneg, hone]
    rw [hsign, hzero] at hneg
    split at hvalue <;> omega
  · rw [if_neg hneg, hzero]
    rw [hsign, hzero] at hneg
    split at hvalue <;> omega

theorem ofInt_tdiv (dividend divisor : Int32) :
    Int32.ofInt (dividend.toInt.tdiv divisor.toInt) = dividend / divisor := by
  rw [Int32.ofInt_eq_iff_bmod_eq_toInt, Int32.toInt_div]

theorem ofInt_tmod (dividend divisor : Int32) :
    Int32.ofInt (dividend.toInt.tmod divisor.toInt) = dividend % divisor := by
  rw [Int32.ofInt_eq_iff_bmod_eq_toInt, ← Int32.toInt_mod]
  exact Int32.toInt_bmod _

/-- Division fails where the divisor is zero, and otherwise leaves both results. -/
theorem runs_division (hleft : IsSource left) (hright : IsSource right)
    {after : List (Instruction Operand)}
    (hloaded : Loaded program state.position (division left right ++ after)) :
    ∃ middle, Runs program 3 state middle ∧
      (if state.read right = 0 then middle.step program = .failed .divisionByZero
      else ∃ last, middle.step program = .running last ∧ last.position = state.position + 4 ∧
        last.get .eax = state.read left / state.read right ∧
        last.get .edx = state.read left % state.read right ∧ SameFrame state last) := by
  obtain ⟨middle, hruns, hposition, hdividend, hdivisor, hsign, hsame⟩ :
      ∃ middle, Runs program 3 state middle ∧ middle.position = state.position + 3 ∧
        middle.get .eax = state.read left ∧ middle.get .ecx = state.read right ∧
        middle.get .edx = (if state.read left < 0 then -1 else 0) ∧ SameFrame state middle := by
    have hfirst : SameFrame state state.next := ⟨rfl, rfl, rfl, rfl, rfl⟩
    have hthird (value sign : Int32) :
        SameFrame state ((state.next.set .eax value).next.set .edx sign).next :=
      ⟨rfl, rfl, rfl, rfl, rfl⟩
    refine ⟨_, ((hloaded.runs rfl).trans (Loaded.runs hloaded.tail rfl)).trans
      (Loaded.runs hloaded.tail.tail rfl), rfl, ?_, ?_, ?_, ⟨rfl, rfl, rfl, rfl, rfl⟩⟩
    · rw [← hfirst.read_eq hleft]
      rfl
    · rw [← (hthird _ _).read_eq hright]
      rfl
    · rw [← hfirst.read_eq hleft]
      rfl
  -- Only now the divisor is tested: three instructions have run in either case.
  have hlast : Loaded program middle.position (.divide (.register .ecx) :: after) :=
    hposition ▸ hloaded.tail.tail.tail
  refine ⟨middle, hruns, ?_⟩
  have hexecute : middle.step program = .ofExcept (middle.next.divide (middle.get .ecx)) :=
    hlast.step
  have heax : middle.next.get .eax = state.read left := hdividend
  have hedx : middle.next.get .edx = (if state.read left < 0 then -1 else 0) := hsign
  rw [hdivisor, State.divide, heax, hedx, dividend_eq] at hexecute
  split
  · next hzero => rw [hexecute, if_pos hzero]; rfl
  · next hzero =>
      have hbound := (state.read left).le_toInt
      rw [if_neg hzero, if_neg (by omega), ofInt_tdiv, ofInt_tmod] at hexecute
      refine ⟨_, hexecute, congrArg (· + 1) hposition, rfl, rfl, ?_⟩
      exact ⟨hsame.memory, hsame.base, hsame.top, hsame.input, hsame.output⟩

end

/-- What the instructions of an operator do, by the outcome of the operator. -/
def Performs (program : Program) (state : State) (block : List (Instruction Operand)) :
    Except ConsoleError Int32 → Prop
  | .ok value => Evaluates program state block value
  | .error error => error = .divisionByZero ∧
    ∃ count middle, Runs program count state middle ∧
      middle.step program = .failed .divisionByZero

/-- A division, and what is done with its two results. -/
theorem performs_division {left right : Operand} {result : Int32}
    {tail : List (Instruction Operand)} (hleft : IsSource left) (hright : IsSource right)
    (hloaded : Loaded program state.position (division left right ++ tail))
    (htail : ∀ last : State, last.position = state.position + 4 →
      last.get .eax = state.read left / state.read right →
      last.get .edx = state.read left % state.read right → SameFrame state last →
        ∃ count final, Runs program count last final ∧
          Evaluated (division left right ++ tail) result state final) :
    Performs program state (division left right ++ tail)
      (if state.read right = 0 then .error .divisionByZero else .ok result) := by
  obtain ⟨middle, hruns, hlast⟩ := runs_division hleft hright hloaded
  split
  · next hzero =>
      rw [if_pos hzero] at hlast
      exact ⟨rfl, 3, middle, hruns, hlast⟩
  · next hzero =>
      rw [if_neg hzero] at hlast
      obtain ⟨last, hstep, hposition, hquotient, hremainder, hsame⟩ := hlast
      obtain ⟨count, final, hafter, hevaluated⟩ := htail last hposition hquotient hremainder hsame
      exact ⟨4 + count, final, by omega, (hruns.trans (.single hstep)).trans hafter, hevaluated⟩

theorem performs_quotient {left right : Operand} (hleft : IsSource left) (hright : IsSource right)
    (hloaded : Loaded program state.position (division left right)) :
    Performs program state (division left right)
      (if state.read right = 0 then .error .divisionByZero
        else .ok (state.read left / state.read right)) := by
  rw [← List.append_nil (division left right)] at hloaded ⊢
  refine performs_division hleft hright hloaded fun last hposition hquotient _ hsame => ?_
  exact ⟨0, last, .refl, hposition, hquotient, hsame⟩

theorem performs_remainder {left right : Operand} (hleft : IsSource left)
    (hright : IsSource right)
    (hloaded : Loaded program state.position
      (division left right ++ [.move (.register .edx) (.register .eax)])) :
    Performs program state (division left right ++ [.move (.register .edx) (.register .eax)])
      (if state.read right = 0 then .error .divisionByZero
        else .ok (state.read left % state.read right)) := by
  refine performs_division hleft hright hloaded fun last hposition _ hremainder hsame => ?_
  have hmove : Loaded program last.position [.move (.register .edx) (.register .eax)] :=
    hposition ▸ hloaded.right
  refine ⟨1, _, hmove.runs rfl, congrArg (· + 1) hposition, hremainder, ?_⟩
  exact ⟨hsame.memory, hsame.base, hsame.top, hsame.input, hsame.output⟩

/-- The instructions of an operator do what the operator does. -/
theorem performs_recipe {operator : Operator} {operands : List Operand}
    (hcount : operands.length = operator.recipe.arity)
    (hsources : ∀ operand ∈ operands, IsSource operand)
    (hloaded : Loaded program state.position (operator.recipe.instructions operands hcount)) :
    Performs program state (operator.recipe.instructions operands hcount)
      (applyOperator operator (operands.map state.read)) := by
  have hone (hone : operands.length = 1) : ∃ operand, operands = [operand] :=
    List.length_eq_one_iff.1 hone
  have htwo (htwo : operands.length = 2) : ∃ left right, operands = [left, right] :=
    ⟨_, _, List.eq_getElem_of_length_eq_two operands htwo⟩
  cases operator with
  | add | subtract | multiply =>
      obtain ⟨left, right, rfl⟩ := htwo hcount
      exact evaluates_combination (hsources left (by simp)) (hsources right (by simp)) hloaded
  | divide =>
      obtain ⟨left, right, rfl⟩ := htwo hcount
      exact performs_quotient (hsources left (by simp)) (hsources right (by simp)) hloaded
  | remainder =>
      obtain ⟨left, right, rfl⟩ := htwo hcount
      exact performs_remainder (hsources left (by simp)) (hsources right (by simp)) hloaded
  | compare condition =>
      obtain ⟨left, right, rfl⟩ := htwo hcount
      have hevaluates := evaluates_comparison (hsources left (by simp)) (hsources right (by simp))
        hloaded
      cases condition <;> exact hevaluates
  | not =>
      obtain ⟨operand, rfl⟩ := hone hcount
      have hone : IsSource (.constant 1) := trivial
      exact evaluates_combination (hsources operand (by simp)) hone hloaded
  | negate =>
      obtain ⟨operand, rfl⟩ := hone hcount
      exact evaluates_negation (hsources operand (by simp)) hloaded

end Machine

end WhileCompiler
