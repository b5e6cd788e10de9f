import WhileCompiler.Proofs.Machine.Images
import WhileCompiler.Proofs.Semantics.Agreement

/-!
# Generated programs

The listing of standalone code runs on the machine as the code is meant to.  The frame is the only
bound: a frame of 2^31 bytes needs a number that no operand can hold, and such a program stops where
it asks for the room.
-/

namespace WhileCompiler

open Asm Ir Semantics

namespace Machine

/-- The machine runs a program as a computation is meant to: whatever it comes to is an outcome of
the computation, and it comes to every outcome of it if it may take enough steps. -/
structure Implements {α : Type} (meaning : Nat → Outcome Console ConsoleError α)
    (machine : Nat → Except Fault Exit) : Prop where
  sound : ∀ limit, machine limit ≠ .error .stepLimit →
    ∃ steps, Reports (meaning steps) (machine limit)
  complete : ∀ steps, meaning steps ≠ .unfinished →
    ∃ limit, ∀ more, Reports (meaning steps) (machine (limit + more))

theorem reports_iff_of_matches {α β : Type} {related : α → β → Prop}
    {left : Outcome Console ConsoleError α} {right : Outcome Console ConsoleError β}
    (hmatches : left.Matches related right) (result : Except Fault Exit) :
    Reports left result ↔ Reports right result := by
  cases hmatches <;> rfl

theorem Implements.of_agree {α β : Type} {related : α → β → Prop}
    {meaning : Nat → Outcome Console ConsoleError α} {lower : Nat → Outcome Console ConsoleError β}
    {machine : Nat → Except Fault Exit} (himplements : Implements lower machine)
    (hagree : Agree related meaning lower) : Implements meaning machine where
  sound limit hreached := by
    obtain ⟨steps, hreports⟩ := himplements.sound limit hreached
    have hended : lower steps ≠ .unfinished := by
      intro hcut
      rw [hcut] at hreports
      exact hreports
    obtain ⟨rounds, hmatches⟩ := hagree.backward steps hended
    exact ⟨rounds, (reports_iff_of_matches hmatches _).2 hreports⟩
  complete rounds hreached := by
    obtain ⟨steps, hmatches⟩ := hagree.forward rounds hreached
    obtain ⟨limit, hreports⟩ :=
      himplements.complete steps (mt hmatches.eq_unfinished_iff.2 hreached)
    exact ⟨limit, fun more => (reports_iff_of_matches hmatches _).2 (hreports more)⟩

section

variable {code : List Command} {routine : Routine} {emitted : List Line}

theorem reports_bind {α β : Type} {outcome : Outcome Console ConsoleError α}
    {result : Except Fault Exit} (value : α → β) :
    Reports (outcome.bind fun found state => .done (value found) state) result ↔
      Reports outcome result := by
  cases outcome <;> rfl

/-- The loaded routine does what its code does with the values that it leaves behind its prints. -/
theorem IsRoutine.implements (hroutine : IsRoutine code routine emitted)
    (hsize : (Frame.ofCommands code).size < 0x80000000) {input : List Int32} {left : Nat → Int32}
    (hleft : LeftBy (loaded routine) (State.initial 0 input) left) :
    Implements
      (fun steps => Ir.run (Console.calls left) code steps (fun _ => 0) ⟨input, []⟩)
      (fun limit => (State.initial 0 input).run (loaded routine) limit) := by
  obtain ⟨count, state, hruns, hposition, hframed⟩ :=
    runs_opening (hroutine.image hsize) hsize input
  have hmatched : Matched (hroutine.image hsize) ⟨0, fun _ => 0⟩ ⟨input, []⟩ state :=
    ⟨Nat.zero_le _, hposition, hframed⟩
  refine ⟨fun limit hreached => ?_, fun steps hreached => ?_⟩
  · by_cases hle : limit ≤ count
    · exact absurd (hruns.run_of_le hle) hreached
    · obtain ⟨more, rfl⟩ : ∃ more, limit = count + more := ⟨limit - count, by omega⟩
      simp only [hruns.run_eq] at hreached ⊢
      obtain ⟨steps, hreports⟩ :=
        steps_of_run hroutine.standalone hsize more hmatched (hleft.after hruns) hreached
      exact ⟨steps, (reports_bind _).2 hreports⟩
  · have hpoint : Point.run (Console.calls left) code steps ⟨0, fun _ => 0⟩ ⟨input, []⟩ ≠
        .unfinished := by
      intro hcut
      rw [Ir.run, hcut] at hreached
      exact hreached rfl
    obtain ⟨limit, hreports⟩ :=
      reports_of_steps hroutine.standalone hsize steps hmatched (hleft.after hruns) hpoint
    refine ⟨count + limit, fun more => (reports_bind _).2 ?_⟩
    rw [Nat.add_assoc, hruns.run_eq]
    exact hreports more

/-! ## Frames that are too large -/

/-- The instruction that makes room for the variables. -/
def room (frame : Frame) : Instruction Operand :=
  .combine .subtract (.constant frame.size) (.register .esp)

/-- A number that does not fit in a word cannot be read. -/
theorem readOperand_large {size : Nat} (hsize : 0x80000000 ≤ size) :
    readOperand (Operand.constant size).text.toList =
      .error (.unreadableOperand (Operand.constant size).text) := by
  have hread : readOperand? (Operand.constant size).text.toList = none := by
    rw [toList_constantText, Text.toString_int_of_nonneg, readOperand?,
      Text.readInt32_toString_large (by omega)]
    rfl
  rw [readOperand, hread, String.ofList_toList]

theorem readLine?_room {frame : Frame} (hsize : 0x80000000 ≤ frame.size) :
    readLine? (indented (Line.text (.instruction (room frame)))) =
      some (.cell (.fault (.unreadableOperand (Operand.constant frame.size).text))) := by
  have hwords : ∀ text ∈ [(Operand.constant frame.size).text, (Operand.register .esp).text],
      IsWord text.toList := by
    intro text htext
    simp only [List.mem_cons, List.not_mem_nil, or_false] at htext
    rcases htext with rfl | rfl
    · exact isWord_operandText _
    · exact isWord_operandText _
  refine (readLine?_written (by simp) (by decide) hwords).trans ?_
  have hcell (operands : List (List Char)) : readCell Operation.subtract.text operands =
      .ofExcept (readTwo Operation.subtract.text operands (.combine .subtract)) := rfl
  rw [hcell, List.map_cons, readTwo, readOperand_large hsize]
  rfl

/-- A program whose frame is too large stops before the first command. -/
theorem IsRoutine.fails (hroutine : IsRoutine code routine emitted)
    (hsize : 0x80000000 ≤ (Frame.ofCommands code).size) (input : List Int32) {limit : Nat}
    (hlimit : 4 ≤ limit) :
    (State.initial 0 input).run (loaded routine) limit =
      .error (.unreadableOperand (Operand.constant (Frame.ofCommands code).size).text) := by
  obtain ⟨more, rfl⟩ : ∃ more, limit = 4 + more := ⟨limit - 4, by omega⟩
  obtain ⟨entered, hruns, hposition, -⟩ := runs_entry hroutine.hasShell input
  have hprologue : prologue (Frame.ofCommands code) =
      [.push (.register .ebp), .move (.register .esp) (.register .ebp),
        room (Frame.ofCommands code)] := by
    rw [prologue, if_neg (by omega)]
    rfl
  have hline : routine.program = (front routine ++
      [Instruction.push (.register .ebp), .move (.register .esp) (.register .ebp)].map
        .instruction) ++ .instruction (room (Frame.ofCommands code)) ::
        (emitted ++ epilogue.map .instruction) := by
    rw [hroutine.program_eq, hprologue]
    simp only [List.map_cons, List.map_nil, List.append_assoc, List.cons_append, List.nil_append]
  have hcell := code_of_cell hroutine.readable.1 (readLine?_room hsize) hline
  rw [instructionsOf_append, List.length_append, length_instructionsOf_front,
    instructionsOf_map] at hcell
  refine run_of_failed hruns (step_of_fault ?_) more
  rw [hposition]
  exact hcell

/-- The listing of standalone code is read back as the routine that it lists. -/
theorem exists_routine (hcode : IsStandalone code) {lines : List String}
    (hlines : listing .standard code = .ok lines) :
    ∃ routine emitted, IsRoutine code routine emitted ∧ Program.ofListing lines = loaded routine := by
  obtain ⟨routine, emitted, hemitted, hroutineLines, -, rfl⟩ := listing_eq hlines
  exact ⟨routine, emitted, ⟨hcode, hemitted, hroutineLines⟩, rfl⟩

theorem IsRoutine.runWithin_eq (hroutine : IsRoutine code routine emitted) {lines : List String}
    (hlines : Program.ofListing lines = loaded routine) (limit : Nat) (input : List Int32) :
    runWithin limit lines input = (State.initial 0 input).run (loaded routine) limit := by
  simp only [runWithin, hlines, hroutine.position?_start]

end

/-- The values that the prints of a listing leave behind when it runs on an input, by how many
numbers were printed before. -/
def PrintsLeave (listing : List String) (input : List Int32) (left : Nat → Int32) : Prop :=
  ∀ start, (Program.ofListing listing).position? "_start" = some start →
    LeftBy (Program.ofListing listing) (State.initial start input) left

theorem IsRoutine.printsLeave_iff {code : List Command} {routine : Routine} {emitted : List Line}
    (hroutine : IsRoutine code routine emitted) {lines : List String}
    (hlines : Program.ofListing lines = loaded routine) {input : List Int32} {left : Nat → Int32} :
    PrintsLeave lines input left ↔ LeftBy (loaded routine) (State.initial 0 input) left := by
  rw [PrintsLeave, hlines, hroutine.position?_start]
  simp only [Option.some.injEq, forall_eq']

/-- The listing of standalone code does on the machine what the code says, on every input, with the
values that the machine leaves behind its prints.  The exception is code with so many variables that
their room cannot be written down as an operand: its program always stops where it asks for this
room. -/
theorem listing_implements (code : List Command) (hcode : IsStandalone code)
    (lines : List String) (hlines : listing .standard code = .ok lines) (input : List Int32) :
    ((Frame.ofCommands code).size < 0x80000000 →
        (∃ left, PrintsLeave lines input left) ∧
        ∀ left, PrintsLeave lines input left → Implements
          (fun steps => Ir.run (Console.calls left) code steps (fun _ => 0) ⟨input, []⟩)
          (fun limit => runWithin limit lines input)) ∧
      (0x80000000 ≤ (Frame.ofCommands code).size → ∀ limit, 4 ≤ limit →
        runWithin limit lines input =
          .error (.unreadableOperand s!"${(Frame.ofCommands code).size}")) := by
  obtain ⟨routine, emitted, hroutine, hloaded⟩ := exists_routine hcode hlines
  simp only [hroutine.runWithin_eq hloaded, hroutine.printsLeave_iff hloaded]
  refine ⟨fun hsize => ⟨?_, fun left hleft => ?_⟩, fun hsize limit hlimit => ?_⟩
  · exact exists_leftBy (hroutine.image hsize).print (State.initial 0 input)
  · exact hroutine.implements hsize hleft
  · exact hroutine.fails hsize input hlimit

/-- Code that prints the numbers from its input down to one. -/
def countdown : List Command :=
  [.call "n" "readInt" [], .label "again", .call "printed" "printInt" [.variable "n"],
    .call "n" "-" [.variable "n", .constant 1], .jumpIf "again" (.variable "n")]

theorem isStandalone_countdown : IsStandalone countdown where
  identifier := by decide
  unreserved := by decide
  nodup := by decide
  targets := by
    intro command hmem target htarget
    simp only [countdown, List.mem_cons, List.not_mem_nil, or_false] at hmem
    rcases hmem with rfl | rfl | rfl | rfl | rfl <;> cases htarget
    decide
  standard := by
    intro destination function arguments hmem
    simp only [countdown, List.mem_cons, List.not_mem_nil, or_false] at hmem
    rcases hmem with h | h | h | h | h <;> cases h
    · exact .inr (.inr ⟨rfl, rfl⟩)
    · exact .inr (.inl ⟨rfl, rfl⟩)
    · exact .inl rfl

theorem listing_implements_countdown :
    IsStandalone countdown ∧ ∃ lines, listing .standard countdown = .ok lines ∧
      ∃ left, PrintsLeave lines [3] left ∧ Implements
        (fun steps => Ir.run (Console.calls left) countdown steps (fun _ => 0) ⟨[3], []⟩)
        (fun limit => runWithin limit lines [3]) := by
  refine ⟨isStandalone_countdown, _, rfl, ?_⟩
  obtain ⟨⟨left, hleft⟩, himplements⟩ :=
    (listing_implements countdown isStandalone_countdown _ rfl [3]).1 (by decide)
  exact ⟨left, hleft, himplements left hleft⟩

theorem runWithin_add {limit : Nat} {lines : List String} {input : List Int32}
    (hreached : runWithin limit lines input ≠ .error .stepLimit) (more : Nat) :
    runWithin (limit + more) lines input = runWithin limit lines input := by
  unfold runWithin at hreached ⊢
  dsimp only at hreached ⊢
  split
  · rfl
  · next start hstart =>
      rw [hstart] at hreached
      exact State.run_add hreached more

/-- Code that prints what printing one has left. -/
def echo : List Command :=
  [.call "first" "printInt" [.constant 1], .call "second" "printInt" [.variable "first"]]

theorem isStandalone_echo : IsStandalone echo where
  identifier := by decide
  unreserved := by decide
  nodup := by decide
  targets := by
    intro command hmem target htarget
    simp only [echo, List.mem_cons, List.not_mem_nil, or_false] at hmem
    rcases hmem with rfl | rfl <;> cases htarget
  standard := by
    intro destination function arguments hmem
    simp only [echo, List.mem_cons, List.not_mem_nil, or_false] at hmem
    rcases hmem with h | h <;> cases h <;> exact .inr (.inl ⟨rfl, rfl⟩)

theorem exists_listing_echo : ∃ lines, listing .standard echo = .ok lines ∧
    runWithin 30 lines [] = .ok ⟨0, [1, 0]⟩ :=
  ⟨_, rfl, rfl⟩

/-- The values behind prints cannot be chosen.  If printing could leave seven, the code would print
one and seven; the machine prints one and zero, in each run that comes to an end. -/
theorem listing_misses_chosen_values :
    IsStandalone echo ∧ (Frame.ofCommands echo).size < 0x80000000 ∧
      ∃ lines, listing .standard echo = .ok lines ∧
        (∃ values, Ir.run (Console.calls fun _ => 7) echo 3 (fun _ => 0) ⟨[], []⟩ =
          .done values ⟨[], [1, 7]⟩) ∧
        ∀ limit, runWithin limit lines [] = .error .stepLimit ∨
          runWithin limit lines [] = .ok ⟨0, [1, 0]⟩ := by
  obtain ⟨lines, hlines, hlast⟩ := exists_listing_echo
  refine ⟨isStandalone_echo, by decide, lines, hlines, ⟨_, rfl⟩, fun limit => ?_⟩
  by_cases hcut : runWithin limit lines [] = .error .stepLimit
  · exact .inl hcut
  · refine .inr ?_
    have hended : runWithin 30 lines [] ≠ .error .stepLimit := by simp [hlast]
    calc runWithin limit lines []
        = runWithin (limit + 30) lines [] := (runWithin_add hcut 30).symm
      _ = runWithin (30 + limit) lines [] := by rw [Nat.add_comm]
      _ = runWithin 30 lines [] := runWithin_add hended limit
      _ = .ok ⟨0, [1, 0]⟩ := hlast

end Machine

end WhileCompiler
