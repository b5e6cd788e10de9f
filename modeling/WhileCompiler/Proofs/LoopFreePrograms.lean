import WhileCompiler.Proofs.CompiledPrograms
import WhileCompiler.Proofs.FrameLayout
import WhileCompiler.Proofs.Machine.StraightRuns

/-!
# Programs without loops

The listing of a program without loops runs straight through: its code jumps only forward, so no
instruction is executed twice, and the program ends within as many steps as it has instructions.
-/

namespace WhileCompiler

open Asm Ir Text Machine

namespace Machine

variable {builtins : Builtins} {code : List Command} {routine : Routine} {emitted lines : List Line}

/-! ## Standalone code -/

/-- The standard functions outside the program take no more than one argument. -/
theorem external_of_isStandardCall {function : String} {arguments : List Value}
    (hcall : IsStandardCall function arguments)
    (hrecipe : Builtins.standard.recipe? function = none) :
    (function = "printInt" ∨ function = "readInt") ∧ arguments.length ≤ 1 := by
  rcases hcall with hoperator | ⟨rfl, hcount⟩ | ⟨rfl, rfl⟩
  · obtain ⟨operator, hoperator⟩ := Option.isSome_iff_exists.1 hoperator
    rw [recipe?_standard hoperator] at hrecipe
    cases hrecipe
  · exact ⟨.inl rfl, Nat.le_of_eq hcount⟩
  · exact ⟨.inr rfl, Nat.zero_le 1⟩

theorem mostArguments_le_one (hcode : IsStandalone code) : mostArguments .standard code ≤ 1 := by
  refine mostArguments_le fun command hmem => ?_
  cases command with
  | call destination function arguments =>
      rw [argumentCount]
      split
      · next hrecipe =>
          exact (external_of_isStandardCall (hcode.standard _ _ _ hmem)
            (Option.isNone_iff_eq_none.1 hrecipe)).2
      · exact Nat.zero_le 1
  | copy | label | jump | jumpIf | jumpUnless => exact Nat.zero_le 1

theorem hasOwnNames_of_isStandalone (hcode : IsStandalone code) : HasOwnNames .standard code where
  labelled name hmem := by
    have hlabel : name ∈ labels code := by
      rcases List.mem_append.1 hmem with hmem | hmem
      · exact hmem
      · obtain ⟨command, hcommand, htarget⟩ := List.mem_filterMap.1 hmem
        exact hcode.targets command hcommand name htarget
    exact ⟨hcode.identifier name hlabel, not_mem_shellSymbols hcode name hlabel⟩
  called name hmem := by
    obtain ⟨destination, arguments, hcall, hrecipe⟩ := exists_call_of_external hmem
    have hroutine := (external_of_isStandardCall (hcode.standard _ _ _ hcall) hrecipe).1
    refine ⟨?_, ?_, fun hlabel => hcode.unreserved name hlabel ?_⟩
    · rcases hroutine with rfl | rfl <;> decide
    · rcases hroutine with rfl | rfl <;> decide
    · rcases hroutine with rfl | rfl <;> decide

/-! ## Room for the variables -/

/-- A command that assigns a variable is emitted as at least one instruction. -/
theorem length_assigned_emit {frame : Frame} {command : Command}
    (hlines : emit builtins frame command = .ok lines) :
    command.assigned?.toList.length ≤ (instructionsOf lines).length := by
  cases command with
  | copy destination value =>
      obtain ⟨operand, slot, -, -, rfl⟩ := emit_copy hlines
      exact Nat.succ_le_succ (Nat.zero_le 1)
  | call destination function arguments =>
      cases hrecipe : builtins.recipe? function with
      | some recipe =>
          obtain ⟨hcount, found, slot, -, -, rfl⟩ := emit_operator hrecipe hlines
          rw [instructionsOf_map, List.length_append]
          exact Nat.le_add_left _ _
      | none =>
          obtain ⟨found, slot, -, -, rfl⟩ := emit_routine hrecipe hlines
          rw [instructionsOf_map, List.length_append]
          exact Nat.le_add_left _ _
  | label | jump | jumpIf | jumpUnless => exact Nat.zero_le _

theorem length_assigned_emitAll {frame : Frame}
    (hemitted : emitAll builtins frame code = .ok emitted) :
    (code.filterMap Command.assigned?).length ≤ (instructionsOf emitted).length := by
  induction code generalizing emitted with
  | nil => exact Nat.zero_le _
  | cons first rest ih =>
      obtain ⟨chunk, others, hchunk, hothers, rfl⟩ := emitAll_cons hemitted
      have hfirst := length_assigned_emit hchunk
      have hrest := ih hothers
      rw [instructionsOf_append, List.length_append, List.filterMap_cons]
      cases hassigned : first.assigned? with
      | none => exact hrest.trans (Nat.le_add_left _ _)
      | some name =>
          rw [hassigned] at hfirst
          exact (Nat.add_le_add hrest hfirst).trans (Nat.le_of_eq (Nat.add_comm _ _))

/-- A program has no more variables than instructions. -/
theorem IsListed.size_le (hroutine : IsListed builtins code routine emitted) :
    (Frame.ofCommands code).size ≤ wordSize * (instructionsOf routine.program).length := by
  have hnames : (assigned code).toFinset.card ≤ (instructionsOf emitted).length :=
    (List.toFinset_card_le _).trans (length_assigned_emitAll hroutine.emits)
  rw [size_ofCommands]
  refine Nat.mul_le_mul_left _ (hnames.trans ?_)
  rw [hroutine.instructionsOf_program]
  simp only [List.length_append]
  omega

end Machine

namespace Compiler

/-- The code of a program without loops jumps only forward, and the listing of such a program runs
straight through on every input: it is never at one instruction twice and never reaches the limit on
steps, unless it has more instructions than that. -/
theorem loop_free_runs_straight (program : Stmt) (hfree : program.isLoopFree = true) :
    JumpsForward program.toIr ∧
      ∀ source lines, parse source = .ok program → compile source = .ok lines →
        instructionCount lines ≤ stepLimit → ∀ input : List Int32,
          (Program.ofListing lines).position? "_start" = some 0 ∧
            IsStraight (Program.ofListing lines) (.initial 0 input) ∧
            runListing lines input ≠ .error .stepLimit := by
  refine ⟨Stmt.jumpsForward_toIr hfree, fun source lines hparse hcompile hcount input => ?_⟩
  obtain ⟨parsed, hparsed, hcheck, hlines⟩ := compileWith_eq_ok.1 hcompile
  obtain rfl := Except.ok.inj (hparse.symm.trans hparsed)
  obtain ⟨after, htyped⟩ := Stmt.wellTyped_of_checkProgram hcheck
  have hcode := Stmt.isStandalone_toIr (Stmt.isSpelled_of_parse hparse) htyped
  obtain ⟨routine, emitted, hemitted, hroutineLines, -, rfl⟩ := listing_eq hlines
  have hroutine : IsListed .standard program.toIr routine emitted :=
    IsRoutine.isListed ⟨hcode, hemitted, hroutineLines⟩
  rw [instructionCount_of_readable hroutine.readable.1] at hcount
  have hnames := hasOwnNames_of_isStandalone hcode
  have hroom : (Frame.ofCommands program.toIr).size +
      wordSize * mostArguments .standard program.toIr < 0x80000000 := by
    have hsize := hroutine.size_le
    have hmost := mostArguments_le_one hcode
    simp only [stepLimit, wordSize] at hcount hsize ⊢
    omega
  have hsize : (Frame.ofCommands program.toIr).size < 0x80000000 := by omega
  have hforward := hroutine.isForward hnames hsize hcode.nodup (Stmt.jumpsForward_toIr hfree)
  have hreturns := hroutine.returnsToShell hnames hroom input
  have hstart : (loaded routine).position? "_start" = some 0 :=
    hroutine.position?_start (hnames.not_mem_labels (by decide))
  refine ⟨hstart, hforward.isStraight hreturns, ?_⟩
  have hrun : runListing (routine.program.map fun line => indented line.text) input =
      (State.initial 0 input).run (loaded routine) stepLimit := by
    rw [loaded] at hstart
    simp only [runListing, runWithin, hstart, loaded]
  rw [hrun]
  apply hforward.run_ne_stepLimit hreturns
  rwa [hroutine.code_eq hsize, List.size_toArray, List.length_map]

/-- A source that reads a number and prints how far it is from zero. -/
def distanceSource : String :=
  "\x7b n: int := readInt(); if n < 0 then n := -n; else if n == 0 then \x7b\x7d printInt(n); \x7d"

def distance : Stmt :=
  .block [.declaration "n" .int (.call "readInt" []),
    .conditional (.binary "<" (.var "n") (.int 0)) (.assignment "n" (.unary "-" (.var "n")))
      (.conditional (.binary "==" (.var "n") (.int 0)) (.block []) .empty),
    .expression (.call "printInt" [.var "n"])]

theorem parse_distance : parse distanceSource = .ok distance := by
  cbv

theorem loop_free_runs_straight_distance :
    distance.isLoopFree = true ∧ parse distanceSource = .ok distance ∧
      ∃ lines, compile distanceSource = .ok lines ∧ instructionCount lines ≤ stepLimit ∧
        JumpsForward distance.toIr ∧ ∀ input : List Int32,
          IsStraight (Program.ofListing lines) (.initial 0 input) ∧
            runListing lines input ≠ .error .stepLimit := by
  obtain ⟨lines, hlines, hcount⟩ :
      ∃ lines, compile distanceSource = .ok lines ∧ instructionCount lines ≤ stepLimit :=
    ⟨_, compileWith_eq_ok.2 ⟨distance, parse_distance, rfl, rfl⟩, by decide +kernel⟩
  obtain ⟨hforward, hstraight⟩ := loop_free_runs_straight distance rfl
  refine ⟨rfl, parse_distance, lines, hlines, hcount, hforward, fun input => ?_⟩
  exact (hstraight _ _ parse_distance hlines hcount input).2

end Compiler

end WhileCompiler
