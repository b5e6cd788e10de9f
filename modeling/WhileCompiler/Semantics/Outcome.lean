/-!
# Outcomes

How a computation with a state ends, when it may fail and may be cut off before it has ended.
Failure keeps the state that was reached, so that what happened before it can be told.
-/

namespace WhileCompiler.Semantics

inductive Outcome (σ ε α : Type)
  | done (value : α) (state : σ)
  | failed (error : ε) (state : σ)
  /-- The computation was cut off. -/
  | unfinished
  deriving DecidableEq, Repr

namespace Outcome

variable {σ ε α β V : Type}

def bind (outcome : Outcome σ ε α) (next : α → σ → Outcome σ ε β) : Outcome σ ε β :=
  match outcome with
  | done value state => next value state
  | failed error state => failed error state
  | unfinished => unfinished

@[simp] theorem bind_done (value : α) (state : σ) (next : α → σ → Outcome σ ε β) :
    (done value state).bind next = next value state := rfl

@[simp] theorem bind_failed (error : ε) (state : σ) (next : α → σ → Outcome σ ε β) :
    (failed error state).bind next = failed error state := rfl

@[simp] theorem bind_unfinished (next : α → σ → Outcome σ ε β) :
    (unfinished : Outcome σ ε α).bind next = unfinished := rfl

theorem bind_assoc {γ : Type} (outcome : Outcome σ ε α) (first : α → σ → Outcome σ ε β)
    (second : β → σ → Outcome σ ε γ) :
    (outcome.bind first).bind second =
      outcome.bind fun value state => (first value state).bind second := by
  cases outcome <;> rfl

/-- Repeats `step` as long as it asks for another round, but for at most `limit` rounds. -/
def iterate (step : V → σ → Outcome σ ε (V × Bool)) : (limit : Nat) → V → σ → Outcome σ ε V
  | 0, _, _ => unfinished
  | limit + 1, value, state =>
    (step value state).bind fun (value, again) state =>
      if again then iterate step limit value state else done value state

/-- A larger limit keeps an outcome that was reached. -/
theorem iterate_mono {step : V → σ → Outcome σ ε (V × Bool)} {limit larger : Nat}
    (hle : limit ≤ larger) {value : V} {state : σ}
    (hreached : iterate step limit value state ≠ unfinished) :
    iterate step larger value state = iterate step limit value state := by
  induction limit generalizing larger value state with
  | zero => exact absurd rfl hreached
  | succ limit ih =>
      obtain ⟨larger, rfl⟩ : ∃ n, larger = n + 1 := ⟨larger - 1, by omega⟩
      simp only [iterate] at hreached ⊢
      cases hstep : step value state with
      | failed error state => rfl
      | unfinished => rfl
      | done result state =>
          simp only [hstep, bind_done] at hreached ⊢
          split
          · next hagain => exact ih (by omega) (by simpa [hagain] using hreached)
          · rfl

end Outcome

end WhileCompiler.Semantics
