import WhileCompiler.Builtins
import WhileCompiler.Proofs.Machine.Printing
import WhileCompiler.Proofs.Machine.Simulation
import WhileCompiler.Text.Identifier

/-!
# Code runs on the machine as it is meant to

Each step of three-address code is mirrored by the instructions of the command that it executes, and
from this whole runs mirror each other, in both directions.  The one thing that the code leaves open
is the value of a call that prints: the machine leaves there what the accumulator happens to hold.
-/

namespace WhileCompiler

open Asm Ir Semantics

namespace Ir

/-- A call to an operator, or to a standard routine with the right number of arguments. -/
def IsStandardCall (function : String) (arguments : List Value) : Prop :=
  (Operator.ofName? function).isSome ∨ function = "printInt" ∧ arguments.length = 1 ∨
    function = "readInt" ∧ arguments = []

/-- Code that defines each label once and jumps nowhere else, under names that mean nothing in a
listing, and that calls no function but the standard ones. -/
structure IsStandalone (code : List Command) : Prop where
  identifier : ∀ name ∈ labels code, Text.isIdentifier name.toList = true
  unreserved : ∀ name ∈ labels code, name ∉ ["main", "_start", "printInt", "readInt"]
  nodup : (labels code).Nodup
  targets : JumpsTo (labels code) code
  standard : ∀ destination function arguments, .call destination function arguments ∈ code →
    IsStandardCall function arguments

end Ir

namespace Machine

variable {code : List Command} {program : Program} {image : Image code program}
  {point : Point} {console : Console} {state : State} {left : Nat → Int32}

/-- The machine is where a run of the code is. -/
structure Matched (image : Image code program) (point : Point) (console : Console)
    (state : State) : Prop where
  bound : point.position ≤ code.length
  position : state.position = image.address point.position
  framed : Framed (Frame.ofCommands code) point.values console state

/-- The machine does what one step of the code does. -/
def Mirrors (image : Image code program) (point : Point) (state : State) :
    Outcome Console ConsoleError (Point × Bool) → Prop
  | .done (next, true) console => ∃ count last, Runs program count state last ∧
    Matched image next console last ∧
    (count = 0 → next.position = point.position + 1 ∧ point.position < code.length)
  | .done (_, false) console => ∃ count last, Runs program count state last ∧
    last.step program = .exited ⟨0, console.output⟩
  | .failed error _ => ∃ fault count last, faultOf? error = some fault ∧
    Runs program count state last ∧ last.step program = .failed fault
  | .unfinished => False

section

variable {destination target function : String} {value condition : Value} {arguments : List Value}

theorem mirrors_copy (hsize : (Frame.ofCommands code).size < 0x80000000)
    (hmatched : Matched image point console state)
    (hcommand : code[point.position]? = some (.copy destination value)) :
    Mirrors image point state
      (.done (point.assign destination (value.read point.values), true) console) := by
  obtain ⟨lines, hlines, hloaded, haddress⟩ := image.emitted hcommand
  obtain ⟨operand, slot, hoperand, hslot, rfl⟩ := emit_copy hlines
  rw [instructionsOf_map] at hloaded haddress
  obtain ⟨last, hruns, hposition, hframed⟩ :=
    runs_copy hsize hmatched.framed hoperand hslot (hmatched.position ▸ hloaded)
  have hbound := (List.getElem?_eq_some_iff.1 hcommand).1
  refine ⟨2, last, hruns, ⟨hbound, ?_, hframed⟩, fun h => absurd h (Nat.succ_ne_zero _)⟩
  rw [hposition, hmatched.position]
  exact haddress.symm

theorem recipe?_standard {operator : Operator}
    (hoperator : Operator.ofName? function = some operator) :
    Builtins.standard.recipe? function = some operator.recipe := by
  have hstandard : Builtins.standard.operator? function = Operator.ofName? function := rfl
  rw [Builtins.recipe?, hstandard, hoperator]
  rfl

theorem mirrors_operator (hsize : (Frame.ofCommands code).size < 0x80000000)
    (hmatched : Matched image point console state) {operator : Operator}
    (hoperator : Operator.ofName? function = some operator)
    (hcommand : code[point.position]? = some (.call destination function arguments)) :
    Mirrors image point state
      ((Calls.invoke (Console.calls left) function (arguments.map (Value.read point.values))
        console).bind fun result console =>
          .done (point.assign destination result, true) console) := by
  obtain ⟨lines, hlines, hloaded, haddress⟩ := image.emitted hcommand
  obtain ⟨hcount, found, slot, hfound, hslot, rfl⟩ :=
    emit_operator (recipe?_standard hoperator) hlines
  rw [instructionsOf_map] at hloaded haddress
  have hruns := runs_operator hsize hmatched.framed hcount hfound hslot
    (hmatched.position ▸ hloaded)
  have hbound := (List.getElem?_eq_some_iff.1 hcommand).1
  simp only [Calls.invoke, Console.calls, hoperator]
  cases happlied : applyOperator operator (arguments.map (Value.read point.values)) with
  | error error =>
      rw [happlied] at hruns
      obtain ⟨rfl, count, last, hfails, hstep⟩ := hruns
      exact ⟨.divisionByZero, count, last, rfl, hfails, hstep⟩
  | ok value =>
      rw [happlied] at hruns
      obtain ⟨count, last, hpos, hruns, hposition, hframed⟩ := hruns
      refine ⟨count, last, hruns, ⟨hbound, ?_, hframed⟩, by omega⟩
      rw [hposition, hmatched.position]
      exact (haddress.trans (by simp [Nat.add_assoc])).symm

/-- What `printInt` leaves in `eax` is its result, which `left` predicts. -/
theorem mirrors_print (hsize : (Frame.ofCommands code).size < 0x80000000)
    (hmatched : Matched image point console state) (hleft : LeftBy program state left)
    (hcommand : code[point.position]? = some (.call destination "printInt" [value])) :
    Mirrors image point state
      (.done (point.assign destination (left console.output.length), true)
        { console with output := console.output ++ [value.read point.values] }) := by
  obtain ⟨lines, hlines, hloaded, haddress⟩ := image.emitted hcommand
  obtain ⟨found, slot, hfound, hslot, rfl⟩ := emit_routine rfl hlines
  obtain ⟨operand, others, hoperand, hothers, hval⟩ := operands_cons hfound
  obtain rfl := Except.ok.inj hothers
  rw [instructionsOf_map, hval] at hloaded haddress
  rw [← hmatched.position] at hloaded
  obtain ⟨pushed, hpush, hcall, houtput, hkept⟩ := runs_push hloaded
  -- What `left` gives is read off before the call, and pushing the argument keeps the accumulator.
  have hresult : left console.output.length = state.get .eax := by
    rw [← hkept, ← hleft 1 pushed hpush hcall, houtput, ← hmatched.framed.output,
      Array.length_toList]
  obtain ⟨last, hruns, hposition, hframed⟩ :=
    runs_print hsize hmatched.framed hoperand hslot image.print hloaded
  rw [← hresult] at hframed
  have hbound := (List.getElem?_eq_some_iff.1 hcommand).1
  refine ⟨4, last, hruns, ⟨hbound, ?_, hframed⟩, fun h => absurd h (Nat.succ_ne_zero _)⟩
  rw [hposition, hmatched.position]
  exact haddress.symm

theorem mirrors_read (hsize : (Frame.ofCommands code).size < 0x80000000)
    (hmatched : Matched image point console state)
    (hcommand : code[point.position]? = some (.call destination "readInt" [])) :
    Mirrors image point state
      ((Calls.invoke (Console.calls left) "readInt" [] console).bind fun result console =>
        .done (point.assign destination result, true) console) := by
  obtain ⟨lines, hlines, hloaded, haddress⟩ := image.emitted hcommand
  obtain ⟨found, slot, hfound, hslot, rfl⟩ := emit_routine rfl hlines
  obtain rfl := Except.ok.inj hfound
  rw [instructionsOf_map] at hloaded haddress
  rw [← hmatched.position] at hloaded
  have hread := runs_read hsize hmatched.framed hslot image.read hloaded
  have hcalls : Console.calls left "readInt" [] console = console.read := rfl
  have hbound := (List.getElem?_eq_some_iff.1 hcommand).1
  rw [Calls.invoke, hcalls, Console.read]
  cases hinput : console.input with
  | nil =>
      rw [hinput] at hread
      exact ⟨.inputExhausted, 0, state, rfl, .refl, hread⟩
  | cons value rest =>
      rw [hinput] at hread
      obtain ⟨last, hruns, hposition, hframed⟩ := hread
      refine ⟨2, last, hruns, ⟨hbound, ?_, hframed⟩, fun h => absurd h (Nat.succ_ne_zero _)⟩
      rw [hposition, hmatched.position]
      exact haddress.symm

/-- Going to a label that the code defines. -/
theorem mirrors_jump (hcode : IsStandalone code) {count : Nat} {middle : State}
    (htarget : target ∈ labels code) (hruns : Runs program count state middle)
    (hframed : Framed (Frame.ofCommands code) point.values console middle)
    (hstep : middle.step program = .ofExcept (middle.next.jump program target)) :
    Mirrors image point state (point.jump code target console) := by
  obtain ⟨index, hlabel⟩ := List.mem_iff_getElem?.1 (mem_labels.1 htarget)
  obtain ⟨lines, hlines, -, haddress⟩ := image.emitted hlabel
  obtain rfl := Except.ok.inj hlines
  have hbound := (List.getElem?_eq_some_iff.1 hlabel).1
  rw [jump_eq hcode.nodup hlabel]
  rw [State.jump, image.labelled hlabel] at hstep
  refine ⟨count + 1, _, hruns.trans (.single hstep), ⟨hbound, ?_, ?_⟩,
    fun h => absurd h (Nat.succ_ne_zero _)⟩
  · exact haddress.symm
  · exact hframed.same ⟨rfl, rfl, rfl, rfl, rfl⟩

/-- A jump that depends on a comparison with zero. -/
theorem mirrors_branch (hcode : IsStandalone code) (hmatched : Matched image point console state)
    {jump : Instruction Operand} {lines : List Line} (taken : Bool) (htarget : target ∈ labels code)
    (hloaded : Loaded program (image.address point.position) (instructionsOf lines))
    (haddress : image.address (point.position + 1) =
      image.address point.position + (instructionsOf lines).length)
    (hbound : point.position < code.length)
    (hlines : List.map Line.instruction <$> branch (Frame.ofCommands code) condition jump =
      .ok lines)
    (hexecute : ∀ middle : State, middle.compared = (condition.read point.values, 0) →
      middle.next.execute program jump =
        if taken then .ofExcept (middle.next.jump program target) else .running middle.next) :
    Mirrors image point state
      (if taken then point.jump code target console else .done (point.next, true) console) := by
  obtain ⟨operand, hoperand, rfl⟩ := branch_eq hlines
  rw [instructionsOf_map] at hloaded haddress
  rw [← hmatched.position] at hloaded
  obtain ⟨middle, hruns, hlast, hposition, hcompared, hframed⟩ :=
    runs_compare hmatched.framed hoperand hloaded
  have hstep := hlast.step.trans (hexecute middle hcompared)
  cases taken with
  | true => exact mirrors_jump hcode htarget hruns hframed hstep
  | false =>
      refine ⟨3, middle.next, hruns.trans (.single hstep), ⟨hbound, ?_, ?_⟩,
        fun h => absurd h (Nat.succ_ne_zero _)⟩
      · exact (haddress.trans (congrArg (· + 1) (hmatched.position ▸ hposition).symm)).symm
      · exact hframed.same ⟨rfl, rfl, rfl, rfl, rfl⟩

end

/-- Every step of the code is mirrored. -/
theorem mirrors_step (hcode : IsStandalone code)
    (hsize : (Frame.ofCommands code).size < 0x80000000)
    (hmatched : Matched image point console state) (hleft : LeftBy program state left) :
    Mirrors image point state (point.step (Console.calls left) code console) := by
  cases hcommand : code[point.position]? with
  | none =>
      have hend : point.position = code.length :=
        Nat.le_antisymm hmatched.bound (List.getElem?_eq_none_iff.1 hcommand)
      have hposition := hmatched.position
      rw [hend] at hposition
      obtain ⟨last, hruns, hstep⟩ := runs_closing image hmatched.framed hposition
      simp only [Point.step, hcommand]
      exact ⟨5, last, hruns, hstep⟩
  | some command =>
      have hmem := List.mem_of_getElem? hcommand
      have hbound := (List.getElem?_eq_some_iff.1 hcommand).1
      have htargets := hcode.targets command hmem
      cases command with
      | copy destination value =>
          simp only [Point.step, hcommand]
          exact mirrors_copy hsize hmatched hcommand
      | call destination function arguments =>
          simp only [Point.step, hcommand]
          rcases hcode.standard destination function arguments hmem with
            hoperator | ⟨rfl, hcount⟩ | ⟨rfl, rfl⟩
          · obtain ⟨operator, hoperator⟩ := Option.isSome_iff_exists.1 hoperator
            exact mirrors_operator hsize hmatched hoperator hcommand
          · obtain ⟨value, rfl⟩ := List.length_eq_one_iff.1 hcount
            exact mirrors_print hsize hmatched hleft hcommand
          · exact mirrors_read hsize hmatched hcommand
      | label name =>
          obtain ⟨lines, hlines, -, haddress⟩ := image.emitted hcommand
          obtain rfl := Except.ok.inj hlines
          simp only [Point.step, hcommand]
          -- A label is no instruction: the machine already stands at what is behind it.
          exact ⟨0, state, .refl, ⟨hbound, hmatched.position.trans haddress.symm, hmatched.framed⟩,
            fun _ => ⟨rfl, hbound⟩⟩
      | jump target =>
          obtain ⟨lines, hlines, hloaded, -⟩ := image.emitted hcommand
          obtain rfl := Except.ok.inj hlines
          rw [← hmatched.position] at hloaded
          simp only [Point.step, hcommand]
          exact mirrors_jump hcode (htargets target rfl) .refl hmatched.framed
            (Loaded.step hloaded)
      | jumpIf target condition =>
          obtain ⟨lines, hlines, hloaded, haddress⟩ := image.emitted hcommand
          have hbranch (taken : Bool) := mirrors_branch hcode hmatched taken (htargets target rfl)
            hloaded haddress hbound hlines
          simp only [Point.step, hcommand]
          split
          · next hzero =>
              refine hbranch false fun middle hcompared => ?_
              simp [State.execute, State.next, hcompared, holds, hzero]
          · next hzero =>
              refine hbranch true fun middle hcompared => ?_
              simp [State.execute, State.next, hcompared, holds, hzero]
      | jumpUnless target condition =>
          obtain ⟨lines, hlines, hloaded, haddress⟩ := image.emitted hcommand
          have hbranch (taken : Bool) := mirrors_branch hcode hmatched taken (htargets target rfl)
            hloaded haddress hbound hlines
          simp only [Point.step, hcommand]
          split
          · next hzero =>
              refine hbranch true fun middle hcompared => ?_
              simp [State.execute, State.next, hcompared, holds, hzero]
          · next hzero =>
              refine hbranch false fun middle hcompared => ?_
              simp [State.execute, State.next, hcompared, holds, hzero]

/-! ## Whole runs -/

/-- The machine ends as the code does: with its output, or with its error. -/
def Reports {α : Type} (outcome : Outcome Console ConsoleError α) (result : Except Fault Exit) :
    Prop :=
  match outcome with
  | .done _ console => result = .ok ⟨0, console.output⟩
  | .failed error _ => ∃ fault, faultOf? error = some fault ∧ result = .error fault
  | .unfinished => False

theorem run_of_exited {last : State} {count : Nat} {exit : Exit}
    (hruns : Runs program count state last) (hstep : last.step program = .exited exit)
    (more : Nat) : state.run program (count + 1 + more) = .ok exit := by
  rw [Nat.add_right_comm, Nat.add_assoc, hruns.run_eq, State.run, hstep]

theorem run_of_failed {last : State} {count : Nat} {fault : Fault}
    (hruns : Runs program count state last) (hstep : last.step program = .failed fault)
    (more : Nat) : state.run program (count + 1 + more) = .error fault := by
  rw [Nat.add_right_comm, Nat.add_assoc, hruns.run_eq, State.run, hstep]

/-- What the code comes to in a number of steps, the machine comes to as well. -/
theorem reports_of_steps (hcode : IsStandalone code)
    (hsize : (Frame.ofCommands code).size < 0x80000000) (steps : Nat)
    (hmatched : Matched image point console state) (hleft : LeftBy program state left)
    (hreached : Point.run (Console.calls left) code steps point console ≠ .unfinished) :
    ∃ count, ∀ more, Reports (Point.run (Console.calls left) code steps point console)
      (state.run program (count + more)) := by
  induction steps generalizing point console state with
  | zero => exact absurd rfl hreached
  | succ steps ih =>
      have hmirrors := mirrors_step hcode hsize hmatched hleft
      simp only [Point.run, Outcome.iterate] at hreached ⊢
      cases hstep : point.step (Console.calls left) code console with
      | done result after =>
          rw [hstep] at hmirrors hreached
          obtain ⟨next, again⟩ := result
          cases again with
          | false =>
              obtain ⟨count, last, hruns, hexit⟩ := hmirrors
              exact ⟨count + 1, fun more => run_of_exited hruns hexit more⟩
          | true =>
              obtain ⟨count, last, hruns, hmatched', -⟩ := hmirrors
              obtain ⟨rest, hreports⟩ := ih hmatched' (hleft.after hruns) hreached
              refine ⟨count + rest, fun more => ?_⟩
              rw [Nat.add_assoc, hruns.run_eq]
              exact hreports more
      | failed error after =>
          rw [hstep] at hmirrors
          obtain ⟨fault, count, last, hfault, hruns, hfailed⟩ := hmirrors
          exact ⟨count + 1, fun more => ⟨fault, hfault, run_of_failed hruns hfailed more⟩⟩
      | unfinished =>
          rw [hstep] at hmirrors
          exact hmirrors.elim

/-- What the machine comes to within a limit, the code comes to as well. -/
theorem steps_of_run (hcode : IsStandalone code)
    (hsize : (Frame.ofCommands code).size < 0x80000000) (limit : Nat) {point : Point}
    {console : Console} {state : State}
    (hmatched : Matched image point console state) (hleft : LeftBy program state left)
    (hreached : state.run program limit ≠ .error .stepLimit) :
    ∃ steps, Reports (Point.run (Console.calls left) code steps point console)
      (state.run program limit) := by
  have hmirrors := mirrors_step hcode hsize hmatched hleft
  cases hstep : point.step (Console.calls left) code console with
  | done result after =>
      rw [hstep] at hmirrors
      obtain ⟨next, again⟩ := result
      cases again with
      | false =>
          obtain ⟨count, last, hruns, hexit⟩ := hmirrors
          by_cases hle : limit ≤ count
          · exact absurd (hruns.run_of_le hle) hreached
          · obtain ⟨more, rfl⟩ : ∃ more, limit = count + 1 + more := ⟨limit - (count + 1), by omega⟩
            refine ⟨1, ?_⟩
            rw [run_of_exited hruns hexit]
            simp [Point.run, Outcome.iterate, hstep, Reports]
      | true =>
          obtain ⟨count, last, hruns, hmatched', hprogress⟩ := hmirrors
          -- Behind a label no instruction has been executed, and the whole limit is left for the
          -- rest.
          by_cases hle : limit ≤ count ∧ 0 < count
          · exact absurd (hruns.run_of_le hle.1) hreached
          · obtain ⟨more, hlimit⟩ : ∃ more, limit = count + more := ⟨limit - count, by omega⟩
            rw [hlimit, hruns.run_eq] at hreached ⊢
            obtain ⟨steps, hreports⟩ :=
              steps_of_run hcode hsize more hmatched' (hleft.after hruns) hreached
            refine ⟨steps + 1, ?_⟩
            rw [Point.run, Outcome.iterate, hstep]
            exact hreports
  | failed error after =>
      rw [hstep] at hmirrors
      obtain ⟨fault, count, last, hfault, hruns, hfailed⟩ := hmirrors
      by_cases hle : limit ≤ count
      · exact absurd (hruns.run_of_le hle) hreached
      · obtain ⟨more, rfl⟩ : ∃ more, limit = count + 1 + more := ⟨limit - (count + 1), by omega⟩
        refine ⟨1, ?_⟩
        rw [run_of_failed hruns hfailed]
        simpa [Point.run, Outcome.iterate, hstep, Reports] using hfault
  | unfinished =>
      rw [hstep] at hmirrors
      exact hmirrors.elim
termination_by (limit, code.length - point.position)
decreasing_by
  -- Either the machine has taken steps, or the code has gone on behind a label.
  rcases Nat.eq_zero_or_pos count with hzero | hpos
  · obtain ⟨hnext, hlt⟩ := hprogress hzero
    have hmore : more = limit := by omega
    rw [hmore]
    exact Prod.Lex.right _ (by omega)
  · exact Prod.Lex.left _ _ (by omega)

end Machine

end WhileCompiler
