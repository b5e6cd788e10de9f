import WhileCompiler.Semantics.Calls

/-!
# Agreement of computations

When two computations do the same.  Outcomes match if they are of one sort and in one state, and
computations that may be cut off agree if each outcome that one of them reaches is matched by the
other one.  Since calls are the only thing that reaches the world, recording them shows in which
order a computation makes them, even if it never ends.
-/

namespace WhileCompiler.Semantics

variable {σ ε α β γ δ V W : Type}

namespace Outcome

theorem bind_done_right (outcome : Outcome σ ε α) :
    (outcome.bind fun value state => .done value state) = outcome := by
  cases outcome <;> rfl

/-- Both computations ended in the same way and in the same state, or both were cut off. -/
inductive Matches (related : α → β → Prop) : Outcome σ ε α → Outcome σ ε β → Prop
  | done {left : α} {right : β} {state : σ} :
      related left right → Matches related (.done left state) (.done right state)
  | failed {error : ε} {state : σ} : Matches related (.failed error state) (.failed error state)
  | unfinished : Matches related .unfinished .unfinished

theorem Matches.rfl (outcome : Outcome σ ε α) : outcome.Matches Eq outcome := by
  cases outcome with
  | done value state => exact .done (Eq.refl value)
  | failed error state => exact .failed
  | unfinished => exact .unfinished

theorem Matches.bind {related : α → β → Prop} {related' : γ → δ → Prop}
    {left : Outcome σ ε α} {right : Outcome σ ε β}
    {leftNext : α → σ → Outcome σ ε γ} {rightNext : β → σ → Outcome σ ε δ}
    (hmatches : left.Matches related right)
    (hnext : ∀ first second state, related first second →
      (leftNext first state).Matches related' (rightNext second state)) :
    (left.bind leftNext).Matches related' (right.bind rightNext) := by
  cases hmatches with
  | done hrelated => exact hnext _ _ _ hrelated
  | failed => exact .failed
  | unfinished => exact .unfinished

theorem Matches.mono {weak strong : α → β → Prop} {left : Outcome σ ε α}
    {right : Outcome σ ε β} (hmatches : left.Matches strong right)
    (himplies : ∀ first second, strong first second → weak first second) :
    left.Matches weak right := by
  cases hmatches with
  | done hrelated => exact .done (himplies _ _ hrelated)
  | failed => exact .failed
  | unfinished => exact .unfinished

theorem Matches.trans {first : α → β → Prop} {second : β → γ → Prop} {left : Outcome σ ε α}
    {middle : Outcome σ ε β} {right : Outcome σ ε γ} (hfirst : left.Matches first middle)
    (hsecond : middle.Matches second right) :
    left.Matches (fun value other => ∃ between, first value between ∧ second between other)
      right := by
  cases hfirst with
  | done hleft =>
      cases hsecond with
      | done hright => exact .done ⟨_, hleft, hright⟩
  | failed => cases hsecond; exact .failed
  | unfinished => cases hsecond; exact .unfinished

theorem Matches.eq_unfinished_iff {related : α → β → Prop} {left : Outcome σ ε α}
    {right : Outcome σ ε β} (hmatches : left.Matches related right) :
    left = .unfinished ↔ right = .unfinished := by
  cases hmatches <;> simp

theorem Matches.symm {related : α → β → Prop} {left : Outcome σ ε α} {right : Outcome σ ε β}
    (hmatches : left.Matches related right) :
    right.Matches (fun value other => related other value) left := by
  cases hmatches with
  | done hrelated => exact .done hrelated
  | failed => exact .failed
  | unfinished => exact .unfinished

/-- Loops match when each round of one matches the round of the other. -/
theorem Matches.iterate {related : V → W → Prop}
    {leftStep : V → σ → Outcome σ ε (V × Bool)} {rightStep : W → σ → Outcome σ ε (W × Bool)}
    (hstep : ∀ left right state, related left right →
      (leftStep left state).Matches
        (fun first second => related first.1 second.1 ∧ first.2 = second.2)
        (rightStep right state))
    (limit : Nat) {left : V} {right : W} {state : σ} (hrelated : related left right) :
    (iterate leftStep limit left state).Matches related
      (iterate rightStep limit right state) := by
  induction limit generalizing left right state with
  | zero => exact .unfinished
  | succ limit ih =>
      refine (hstep left right state hrelated).bind ?_
      rintro ⟨left, again⟩ ⟨right, _⟩ state ⟨hrelated, rfl⟩
      cases again with
      | false => exact .done hrelated
      | true => exact ih hrelated

end Outcome

/-- Two computations reach the same outcomes, each within some limit. -/
structure Agree (related : α → β → Prop) (left : Nat → Outcome σ ε α)
    (right : Nat → Outcome σ ε β) : Prop where
  forward : ∀ limit, left limit ≠ .unfinished →
    ∃ other, (left limit).Matches related (right other)
  backward : ∀ limit, right limit ≠ .unfinished →
    ∃ other, (left other).Matches related (right limit)

theorem agree_of_matches {related : α → β → Prop} {left : Nat → Outcome σ ε α}
    {right : Nat → Outcome σ ε β} (hmatches : ∀ limit, (left limit).Matches related (right limit)) :
    Agree related left right where
  forward limit _ := ⟨limit, hmatches limit⟩
  backward limit _ := ⟨limit, hmatches limit⟩

theorem Agree.trans {first : α → β → Prop} {second : β → γ → Prop} {left : Nat → Outcome σ ε α}
    {middle : Nat → Outcome σ ε β} {right : Nat → Outcome σ ε γ} (hfirst : Agree first left middle)
    (hsecond : Agree second middle right) :
    Agree (fun value other => ∃ between, first value between ∧ second between other) left
      right where
  forward limit hreached := by
    obtain ⟨between, hleft⟩ := hfirst.forward limit hreached
    obtain ⟨other, hright⟩ := hsecond.forward between (mt hleft.eq_unfinished_iff.2 hreached)
    exact ⟨other, hleft.trans hright⟩
  backward limit hreached := by
    obtain ⟨between, hright⟩ := hsecond.backward limit hreached
    obtain ⟨other, hleft⟩ := hfirst.backward between (mt hright.eq_unfinished_iff.1 hreached)
    exact ⟨other, hleft.trans hright⟩

/-- A call that was made. -/
structure Event (ε : Type) where
  function : String
  arguments : List Int32
  result : Except ε Int32

/-- Calls that are recorded.  The computation is broken off behind the last call that is asked for,
so that the calls of an endless one can be seen too. -/
def Calls.recorded (calls : Calls σ ε) (count : Nat) :
    Calls (σ × List (Event ε)) (Option ε) :=
  fun function arguments (state, events) =>
    let (result, state) := calls function arguments state
    let events := events ++ [⟨function, arguments, result⟩]
    (if events.length < count then result.mapError some else .error none, state, events)

end WhileCompiler.Semantics
