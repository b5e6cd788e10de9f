import WhileCompiler.Proofs.Machine.Simulation
import WhileCompiler.Proofs.Machine.Steps

/-!
# What printing leaves behind

A call that prints gives back whatever the accumulator happens to hold.  Since what was printed is
never taken back, the number of the printed numbers tells the calls of one run apart, and so each
of them has its own value.
-/

namespace WhileCompiler

open Asm

namespace Machine

variable {program : Program} {state : State} {left : Nat → Int32}

theorem output_write {destination : Operand} {value : Int32} {next : State}
    (hwrite : state.write destination value = .ok next) : next.output = state.output := by
  cases destination <;> cases hwrite <;> rfl

/-- Instructions take back nothing that was printed. -/
theorem Leads.size_output {instruction : Instruction Operand} {next : State}
    (hleads : Leads program state instruction next) : state.output.size ≤ next.output.size := by
  cases hleads with
  | computes _ _ hsame => exact Nat.le_of_eq (congrArg Array.size hsame.output.symm)
  | writes _ _ hwrite | pops hwrite =>
      exact Nat.le_of_eq (congrArg Array.size (output_write hwrite).symm)
  | callsHost _ hcall =>
      rcases callHost_cases hcall with ⟨-, rfl⟩ | ⟨-, value, rest, -, rfl⟩
      · simp
      · exact Nat.le_refl _
  | pushes | passes _ _ | jumps _ _ | calls _ | returns => exact Nat.le_refl _

theorem size_output_step {next : State} (hstep : state.step program = .running next) :
    state.output.size ≤ next.output.size := by
  rcases step_cases hstep with ⟨instruction, -, hleads⟩ | ⟨condition, reason, -, rfl⟩
  · exact hleads.size_output
  · exact Nat.le_refl _

theorem Runs.size_output {count : Nat} {last : State} (hruns : Runs program count state last) :
    state.output.size ≤ last.output.size := by
  induction hruns with
  | refl => exact Nat.le_refl _
  | step hstep _ ih => exact Nat.le_trans (size_output_step hstep) ih

/-- Of two runs from one state, the longer one continues the shorter one. -/
theorem Runs.continue {count more : Nat} {middle last : State}
    (hfirst : Runs program count state middle) (hlonger : Runs program (count + more) state last) :
    Runs program more middle last := by
  induction hfirst with
  | refl => rwa [Nat.zero_add] at hlonger
  | step hstep _ ih =>
      rw [Nat.add_right_comm] at hlonger
      cases hlonger with
      | step hstep' hrest =>
          obtain rfl := Progress.running.inj (hstep.symm.trans hstep')
          exact ih hrest

/-- What the accumulator holds whenever a number is about to be printed.  Printing keeps it, so that
this is what the call leaves behind as its result. -/
def LeftBy (program : Program) (start : State) (left : Nat → Int32) : Prop :=
  ∀ count state, Runs program count start state →
    program.code[state.position]? = some (.run (.call "printInt")) →
    left state.output.size = state.get .eax

theorem LeftBy.after {start : State} {count : Nat} (hleft : LeftBy program start left)
    (hruns : Runs program count start state) : LeftBy program state left :=
  fun more last hmore => hleft (count + more) last (hruns.trans hmore)

/-- A number is about to be printed, behind a number of others. -/
structure Printing (program : Program) (start : State) (printed : Nat) (state : State) : Prop where
  reached : ∃ count, Runs program count start state
  call : program.code[state.position]? = some (.run (.call "printInt"))
  size : state.output.size = printed

/-- There is one state in which a run is about to print the number at a given place. -/
theorem Printing.unique (hhost : program.position? "printInt" = none) {start first second : State}
    {printed : Nat} (hfirst : Printing program start printed first)
    (hsecond : Printing program start printed second) : first = second := by
  have hlater {count more : Nat} {first second : State}
      (hfirst : Printing program start printed first)
      (hsecond : Printing program start printed second) (hcount : Runs program count start first)
      (hmore : Runs program (count + more) start second) : first = second := by
    have hruns := hcount.continue hmore
    cases hruns with
    | refl => rfl
    | step hstep hrest =>
        rw [State.step, hfirst.call] at hstep
        simp only [execute_print hhost] at hstep
        have hgrown := hrest.size_output
        rw [← Progress.running.inj hstep] at hgrown
        simp only [Array.size_push] at hgrown
        have := hfirst.size
        have := hsecond.size
        omega
  obtain ⟨count, hcount⟩ := hfirst.reached
  obtain ⟨other, hother⟩ := hsecond.reached
  rcases Nat.le_total count other with hle | hle
  · obtain ⟨more, rfl⟩ := Nat.exists_eq_add_of_le hle
    exact hlater hfirst hsecond hcount hother
  · obtain ⟨more, rfl⟩ := Nat.exists_eq_add_of_le hle
    exact (hlater hsecond hfirst hother hcount).symm

/-- The values that printing leaves are determined by the program and the state it starts in. -/
theorem exists_leftBy (hhost : program.position? "printInt" = none) (start : State) :
    ∃ left, LeftBy program start left := by
  have hvalue (printed : Nat) :
      ∃ value, ∀ state, Printing program start printed state → state.get .eax = value := by
    by_cases hprinting : ∃ state, Printing program start printed state
    · obtain ⟨state, hstate⟩ := hprinting
      exact ⟨state.get .eax, fun other hother => by rw [hother.unique hhost hstate]⟩
    · exact ⟨0, fun state hstate => absurd ⟨state, hstate⟩ hprinting⟩
  refine ⟨fun printed => (hvalue printed).choose, fun count state hruns hcall => ?_⟩
  exact ((hvalue state.output.size).choose_spec state ⟨⟨count, hruns⟩, hcall, rfl⟩).symm

end Machine

end WhileCompiler
