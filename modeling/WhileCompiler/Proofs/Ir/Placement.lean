import WhileCompiler.Ir.Execution
import WhileCompiler.Proofs.Ir.Labels

/-!
# Running code that stands inside other code

A stretch of commands keeps its place in the code around it.  A run that enters it follows a
computation if it reaches the outcome of that computation: the same value, the same failure, or no
end within the limit where the computation was cut off.
-/

namespace WhileCompiler.Ir

open Semantics

/-- A stretch of code that stands at a position. -/
def Placed (code : List Command) (position : Nat) (stretch : List Command) : Prop :=
  ∀ index command, stretch[index]? = some command → code[position + index]? = some command

section

variable {code before after rest : List Command} {position : Nat} {command : Command}

theorem placed_self (code : List Command) : Placed code 0 code := by
  intro index command hcommand
  rwa [Nat.zero_add]

theorem Placed.left (hplaced : Placed code position (before ++ after)) :
    Placed code position before := by
  intro index command hcommand
  apply hplaced
  have hlength : index < before.length := (List.getElem?_eq_some_iff.1 hcommand).1
  rw [List.getElem?_append_left hlength, hcommand]

theorem Placed.right (hplaced : Placed code position (before ++ after)) :
    Placed code (position + before.length) after := by
  intro index command hcommand
  rw [Nat.add_assoc]
  apply hplaced
  rw [List.getElem?_append_right (Nat.le_add_right _ _), Nat.add_sub_cancel_left, hcommand]

theorem Placed.head (hplaced : Placed code position (command :: rest)) :
    code[position]? = some command :=
  hplaced 0 command rfl

theorem Placed.tail (hplaced : Placed code position (command :: rest)) :
    Placed code (position + 1) rest := by
  intro index other hother
  rw [Nat.add_assoc, Nat.add_comm 1 index]
  exact hplaced (index + 1) other hother

end

variable {σ ε α β : Type}

/-! ## Single steps -/

section

variable {calls : Calls σ ε} {code : List Command} {point : Point} {index : Nat}
  {target name : String} {condition value : Value}

theorem step_copy (hcommand : code[point.position]? = some (.copy name value)) (state : σ) :
    point.step calls code state =
      .done (point.assign name (value.read point.values), true) state := by
  simp only [Point.step, hcommand]

theorem step_label (hcommand : code[point.position]? = some (.label name)) (state : σ) :
    point.step calls code state = .done (point.next, true) state := by
  simp only [Point.step, hcommand]

theorem jump_eq (hnodup : (labels code).Nodup) (hlabel : code[index]? = some (.label target))
    (state : σ) :
    (point.jump code target state : Outcome σ ε _) =
      .done ({ point with position := index + 1 }, true) state := by
  simp only [Point.jump, idxOf?_label hnodup hlabel]

theorem step_jump (hnodup : (labels code).Nodup)
    (hcommand : code[point.position]? = some (.jump target))
    (hlabel : code[index]? = some (.label target)) (state : σ) :
    point.step calls code state = .done ({ point with position := index + 1 }, true) state := by
  simp only [Point.step, hcommand, jump_eq hnodup hlabel]

theorem step_jumpUnless_of_zero (hnodup : (labels code).Nodup)
    (hcommand : code[point.position]? = some (.jumpUnless target condition))
    (hlabel : code[index]? = some (.label target)) (hzero : condition.read point.values = 0)
    (state : σ) :
    point.step calls code state = .done ({ point with position := index + 1 }, true) state := by
  simp only [Point.step, hcommand, hzero, if_true, jump_eq hnodup hlabel]

theorem step_jumpUnless_of_ne
    (hcommand : code[point.position]? = some (.jumpUnless target condition))
    (hne : condition.read point.values ≠ 0) (state : σ) :
    point.step calls code state = .done (point.next, true) state := by
  simp only [Point.step, hcommand, hne, if_false]

end

/-! ## Several steps -/

/-- A number of steps, after each of which the run goes on. -/
inductive Steps (calls : Calls σ ε) (code : List Command) :
    Nat → Point → σ → Point → σ → Prop
  | refl {point : Point} {state : σ} : Steps calls code 0 point state point state
  | step {count : Nat} {point next last : Point} {state middle final : σ} :
      point.step calls code state = .done (next, true) middle →
      Steps calls code count next middle last final →
      Steps calls code (count + 1) point state last final

section

variable {calls : Calls σ ε} {code : List Command} {count more limit smaller : Nat}
variable {point next last : Point} {state middle final : σ}

theorem Steps.trans (hfirst : Steps calls code count point state next middle)
    (hsecond : Steps calls code more next middle last final) :
    Steps calls code (count + more) point state last final := by
  induction hfirst with
  | refl => rwa [Nat.zero_add]
  | step hstep _ ih =>
      rw [Nat.add_right_comm]
      exact .step hstep (ih hsecond)

theorem Steps.run_eq (hsteps : Steps calls code count point state last final) (more : Nat) :
    Point.run calls code (count + more) point state = Point.run calls code more last final := by
  induction hsteps with
  | refl => rw [Nat.zero_add]
  | step hstep _ ih =>
      rw [← ih, Nat.add_right_comm]
      simp [Point.run, Outcome.iterate, hstep]

/-- More steps change nothing once the run has come to an end. -/
theorem run_mono {values : String → Int32}
    (hreached : run calls code smaller values state ≠ .unfinished) (hle : smaller ≤ limit) :
    run calls code limit values state = run calls code smaller values state := by
  have hpoint : Point.run calls code smaller ⟨0, values⟩ state ≠ .unfinished := by
    intro hcut
    rw [run, hcut] at hreached
    exact hreached rfl
  rw [run, run, Point.run, Outcome.iterate_mono hle hpoint, Point.run]

/-- The run from a point follows a computation. -/
def Follows (calls : Calls σ ε) (code : List Command) (limit : Nat)
    (reached : α → Point → Prop) (point : Point) (state : σ) : Outcome σ ε α → Prop
  | .done value final =>
    ∃ count last, Steps calls code count point state last final ∧ reached value last
  | .failed error final =>
    ∃ count last before, Steps calls code count point state last before ∧
      last.step calls code before = .failed error final
  | .unfinished =>
    ∃ count last final, limit ≤ count ∧ Steps calls code count point state last final

namespace Follows

variable {reached : α → Point → Prop} {reached' : β → Point → Prop} {outcome : Outcome σ ε α}

theorem mono (hfollows : Follows calls code limit reached point state outcome)
    (hle : smaller ≤ limit) : Follows calls code smaller reached point state outcome := by
  cases outcome with
  | done value final => exact hfollows
  | failed error final => exact hfollows
  | unfinished =>
      obtain ⟨count, last, final, hcount, hsteps⟩ := hfollows
      exact ⟨count, last, final, Nat.le_trans hle hcount, hsteps⟩

theorem weaken {weaker : α → Point → Prop}
    (hfollows : Follows calls code limit reached point state outcome)
    (himplies : ∀ value last, reached value last → weaker value last) :
    Follows calls code limit weaker point state outcome := by
  cases outcome with
  | done value final =>
      obtain ⟨count, last, hsteps, hreached⟩ := hfollows
      exact ⟨count, last, hsteps, himplies value last hreached⟩
  | failed error final => exact hfollows
  | unfinished => exact hfollows

/-- Steps in front of a run that follows a computation are part of following it. -/
theorem after_steps (hsteps : Steps calls code count point state next middle)
    (hfollows : Follows calls code limit reached next middle outcome) :
    Follows calls code (limit + count) reached point state outcome := by
  cases outcome with
  | done value final =>
      obtain ⟨more, last, hmore, hreached⟩ := hfollows
      exact ⟨count + more, last, hsteps.trans hmore, hreached⟩
  | failed error final =>
      obtain ⟨more, last, before, hmore, hfailed⟩ := hfollows
      exact ⟨count + more, last, before, hsteps.trans hmore, hfailed⟩
  | unfinished =>
      obtain ⟨more, last, final, hle, hmore⟩ := hfollows
      exact ⟨count + more, last, final, by omega, hsteps.trans hmore⟩

theorem after_step (hstep : point.step calls code state = .done (next, true) middle)
    (hfollows : Follows calls code limit reached next middle outcome) :
    Follows calls code (limit + 1) reached point state outcome :=
  after_steps (.step hstep .refl) hfollows

theorem step (hstep : point.step calls code state = .done (next, true) middle)
    (hfollows : Follows calls code limit reached next middle outcome) :
    Follows calls code limit reached point state outcome :=
  (hfollows.after_step hstep).mono (Nat.le_succ limit)

theorem done {value : α} (hreached : reached value point) :
    Follows calls code limit reached point state (.done value state : Outcome σ ε α) :=
  ⟨0, point, .refl, hreached⟩

theorem bind {next : α → σ → Outcome σ ε β}
    (hfollows : Follows calls code limit reached point state outcome)
    (hnext : ∀ value last final, reached value last →
      Follows calls code limit reached' last final (next value final)) :
    Follows calls code limit reached' point state (outcome.bind next) := by
  cases outcome with
  | done value final =>
      obtain ⟨count, last, hsteps, hreached⟩ := hfollows
      exact (after_steps hsteps (hnext value last final hreached)).mono (Nat.le_add_right _ _)
  | failed error final => exact hfollows
  | unfinished => exact hfollows

end Follows

/-- A command that makes a call follows the call. -/
theorem follows_invoke {destination function : String} {arguments : List Value}
    (hcommand : code[point.position]? = some (.call destination function arguments))
    (limit : Nat) (state : σ) :
    Follows calls code limit (fun result last => last = point.assign destination result) point state
      (calls.invoke function (arguments.map (Value.read point.values)) state) := by
  have hstep : point.step calls code state =
      (calls.invoke function (arguments.map (Value.read point.values)) state).bind
        fun result state => .done (point.assign destination result, true) state := by
    simp only [Point.step, hcommand]
  unfold Calls.invoke at hstep ⊢
  split at hstep
  · exact ⟨1, _, .step hstep .refl, rfl⟩
  · exact ⟨0, point, state, .refl, hstep⟩

end

end WhileCompiler.Ir
