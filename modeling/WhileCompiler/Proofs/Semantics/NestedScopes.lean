import WhileCompiler.Semantics.Evaluation

/-!
# Nested scopes

Which names the frames of nested scopes bind, and what declarations, assignments and the ends of
blocks change about that.  An assignment keeps every frame's names, a declaration adds one to the
innermost frame, and the end of a block brings back what was below.
-/

namespace WhileCompiler

open Semantics

namespace Scopes

variable {α : Type}

/-- Which names each frame binds, innermost first. -/
def domains (scopes : Scopes α) : List (String → Bool) :=
  scopes.frames.map fun frame name => (frame.get? name).isSome

theorem domains_ne_nil (scopes : Scopes α) : scopes.domains ≠ [] := by
  simp [domains, frames]

/-- Only the innermost frame changes, and only at the name that is declared. -/
theorem domains_declare (scopes : Scopes α) (name : String) (value : α) :
    ∃ top below, scopes.domains = top :: below ∧
      (scopes.declare name value).domains = (fun other => other = name || top other) :: below := by
  have hinsert (frame : Bindings α) : (fun other => ((frame.insert name value).get? other).isSome) =
      fun other => other = name || (frame.get? other).isSome := by
    funext other
    rw [Bindings.get?_insert]
    split
    · next heq => simp [heq]
    · next hne => simp [hne]
  cases hentered : scopes.entered with
  | nil =>
      refine ⟨fun other => (scopes.root.get? other).isSome, [], ?_, ?_⟩
      · rw [domains, frames, hentered]
        rfl
      · simp only [domains, frames, declare, hentered, List.nil_append, List.map_cons, List.map_nil,
          hinsert]
  | cons top others =>
      refine ⟨fun other => (top.get? other).isSome,
        (others ++ [scopes.root]).map fun frame other => (frame.get? other).isSome, ?_, ?_⟩
      · rw [domains, frames, hentered]
        rfl
      · simp only [domains, frames, declare, hentered, List.cons_append, List.map_cons, hinsert]

/-- Leaving a frame uncovers those below it. -/
theorem domains_pop {scopes : Scopes α} {top : String → Bool} {below : List (String → Bool)}
    (hdomains : scopes.domains = top :: below) (hbelow : below ≠ []) :
    scopes.pop.domains = below := by
  obtain ⟨entered, root⟩ := scopes
  cases entered with
  | nil =>
      obtain ⟨-, rfl⟩ := List.cons.inj hdomains
      exact absurd rfl hbelow
  | cons frame others => exact (List.cons.inj hdomains).2

/-- A name that the innermost frame does not bind means the same once the frame is left. -/
theorem lookup?_pop {scopes : Scopes α} {top : String → Bool} {below : List (String → Bool)}
    (hdomains : scopes.domains = top :: below) (hbelow : below ≠ []) {name : String}
    (hname : top name = false) : scopes.pop.lookup? name = scopes.lookup? name := by
  obtain ⟨entered, root⟩ := scopes
  cases entered with
  | nil =>
      obtain ⟨-, rfl⟩ := List.cons.inj hdomains
      exact absurd rfl hbelow
  | cons frame others =>
      have htop : (frame.get? name).isSome = false :=
        (congrFun (List.cons.inj hdomains).1 name).trans hname
      rw [Option.isSome_eq_false_iff, Option.isNone_iff_eq_none] at htop
      simp only [lookup?, frames, pop, List.tail_cons, List.cons_append, List.findSome?_cons, htop]

end Scopes

namespace Storage

theorem domains_assignInnermost (name : String) (value : Int32) (frames : List (Bindings Int32)) :
    (assignInnermost name value frames).map (fun frame other => (frame.get? other).isSome) =
      frames.map fun frame other => (frame.get? other).isSome := by
  induction frames with
  | nil => rfl
  | cons frame outer ih =>
      rw [assignInnermost]
      split
      · next hbound =>
          rw [List.map_cons, List.map_cons]
          congr 1
          funext other
          rw [Bindings.get?_insert]
          split
          · next heq => rw [heq, hbound]; rfl
          · rfl
      · rw [List.map_cons, List.map_cons, ih]

theorem lookup_assignInnermost {name : String} (value : Int32) {frames : List (Bindings Int32)}
    (hbound : frames.findSome? (fun frame => frame.get? name) ≠ none) (other : String) :
    (assignInnermost name value frames).findSome? (fun frame => frame.get? other) =
      if other = name then some value else frames.findSome? fun frame => frame.get? other := by
  induction frames with
  | nil => exact absurd rfl hbound
  | cons frame outer ih =>
      rw [assignInnermost]
      by_cases hframe : (frame.get? name).isSome
      · rw [if_pos hframe, List.findSome?_cons, List.findSome?_cons, Bindings.get?_insert]
        by_cases hother : other = name
        · simp only [hother, if_true]
        · simp only [hother, if_false]
      · have hnone : frame.get? name = none := by simpa using hframe
        rw [List.findSome?_cons, hnone] at hbound
        rw [if_neg hframe, List.findSome?_cons, List.findSome?_cons, ih hbound]
        by_cases hother : other = name
        · simp only [hother, hnone, if_true]
        · simp only [hother, if_false]

/-- The outermost frame is changed if no frame that was entered binds the name. -/
theorem assignInnermost_concat {name : String} (value : Int32) {entered : List (Bindings Int32)}
    {root : Bindings Int32}
    (hbound : (entered ++ [root]).findSome? (fun frame => frame.get? name) ≠ none) :
    assignInnermost name value (entered ++ [root]) =
      if entered.any fun frame => (frame.get? name).isSome then
        assignInnermost name value entered ++ [root]
      else entered ++ [root.insert name value] := by
  induction entered with
  | nil =>
      have hroot : (root.get? name).isSome := by
        rw [Option.isSome_iff_ne_none]
        simpa using hbound
      simp [assignInnermost, hroot]
  | cons frame outer ih =>
      by_cases hframe : (frame.get? name).isSome
      · simp [assignInnermost, hframe]
      · have hnone : frame.get? name = none := by simpa using hframe
        rw [List.cons_append, List.findSome?_cons, hnone] at hbound
        simp only [List.cons_append, assignInnermost, hframe, ih hbound, List.any_cons,
          Bool.false_or, if_false, Bool.false_eq_true]
        split <;> rfl

/-- An assignment changes the innermost frame that binds the name. -/
theorem frames_assign {scopes : Scopes Int32} {name : String} (value : Int32)
    (hbound : scopes.lookup? name ≠ none) :
    (nested.assign scopes name value).frames = assignInnermost name value scopes.frames := by
  have hframes : scopes.frames = scopes.entered ++ [scopes.root] := rfl
  rw [hframes, assignInnermost_concat value hbound]
  simp only [nested, Scopes.frames]
  split <;> rfl

theorem domains_assign {scopes : Scopes Int32} {name : String} (value : Int32)
    (hbound : scopes.lookup? name ≠ none) :
    (nested.assign scopes name value).domains = scopes.domains := by
  rw [Scopes.domains, frames_assign value hbound, domains_assignInnermost]
  rfl

theorem lookup?_assign {scopes : Scopes Int32} {name : String} (value : Int32)
    (hbound : scopes.lookup? name ≠ none) (other : String) :
    (nested.assign scopes name value).lookup? other =
      if other = name then some value else scopes.lookup? other := by
  rw [Scopes.lookup?, frames_assign value hbound]
  exact lookup_assignInnermost value hbound other

end Storage

end WhileCompiler
