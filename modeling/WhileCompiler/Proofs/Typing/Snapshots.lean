import WhileCompiler.Proofs.Typing.Checking
import WhileCompiler.Scopes.Snapshots

/-!
# Chains of frames and snapshots

A frame holds only what was declared in it, and a snapshot all that is visible.  Both tell the same
of every name after the same actions, since each action on frames is that action on the snapshots
that they amount to.  Leaving a scope therefore brings back exactly what was visible before it.
-/

namespace WhileCompiler

namespace Scopes

variable {α : Type}

/-- What each frame that encloses the innermost one lets see. -/
def enclosing : List (Bindings α) → Bindings α → List (String → Option α)
  | [], _ => []
  | _ :: outer, root => (Scopes.mk outer root).lookup? :: enclosing outer root

/-- The snapshots that frames amount to. -/
def snapshots (scopes : Scopes α) : Snapshots α :=
  ⟨scopes.lookup?, enclosing scopes.entered scopes.root⟩

theorem length_enclosing (entered : List (Bindings α)) (root : Bindings α) :
    (enclosing entered root).length = entered.length := by
  induction entered with
  | nil => rfl
  | cons frame outer ih => exact congrArg (· + 1) ih

theorem depth_snapshots (scopes : Scopes α) : scopes.snapshots.depth = scopes.depth := by
  rw [Snapshots.depth, snapshots, length_enclosing, depth, frames, List.length_append]
  rfl

theorem snapshots_declare (scopes : Scopes α) (name : String) (value : α) :
    (scopes.declare name value).snapshots = scopes.snapshots.declare name value := by
  have hvisible : (scopes.declare name value).lookup? =
      fun other => if other = name then some value else scopes.lookup? other :=
    funext fun other => scopes.lookup?_declare name other value
  obtain ⟨entered, root⟩ := scopes
  rw [snapshots, hvisible]
  cases entered with
  | nil => rfl
  | cons top outer => rfl

theorem snapshots_pop (scopes : Scopes α) : scopes.pop.snapshots = scopes.snapshots.pop := by
  obtain ⟨entered, root⟩ := scopes
  cases entered with
  | nil => rfl
  | cons top outer => rfl

theorem snapshots_act (scopes : Scopes α) (action : ScopeAction α) :
    (scopes.act action).snapshots = scopes.snapshots.act action := by
  cases action with
  | push => rfl
  | pop => exact scopes.snapshots_pop
  | declare name value => exact scopes.snapshots_declare name value

theorem snapshots_foldl (scopes : Scopes α) (actions : List (ScopeAction α)) :
    (actions.foldl act scopes).snapshots = actions.foldl Snapshots.act scopes.snapshots :=
  (List.foldl_hom snapshots fun scopes action => (scopes.snapshots_act action).symm).symm

end Scopes

/-- Actions that leave each scope that they enter, and no other one. -/
inductive ScopeAction.Balanced {α : Type} : List (ScopeAction α) → Prop
  | nil : Balanced []
  | declare (name : String) (value : α) {rest : List (ScopeAction α)} :
      Balanced rest → Balanced (.declare name value :: rest)
  | scope {inner rest : List (ScopeAction α)} :
      Balanced inner → Balanced rest → Balanced (.push :: inner ++ .pop :: rest)

namespace Scopes

section

variable {α : Type} {actions : List (ScopeAction α)}

/-- A scope that is entered and left leaves nothing behind, if what happens in it keeps the frames
around it. -/
theorem foldl_act_scope {scopes : Scopes α}
    (hinner : (actions.foldl act scopes.push).frames.tail = scopes.push.frames.tail) :
    (ScopeAction.push :: actions ++ [ScopeAction.pop]).foldl act scopes = scopes := by
  rw [List.foldl_append]
  exact pop_of_frames_tail hinner

/-- Balanced actions touch nothing but the innermost frame. -/
theorem frames_tail_foldl (hactions : ScopeAction.Balanced actions) (scopes : Scopes α) :
    (actions.foldl act scopes).frames.tail = scopes.frames.tail := by
  induction hactions generalizing scopes with
  | nil => rfl
  | declare name value _ ih => exact (ih _).trans (scopes.frames_tail_declare name value)
  | @scope inner rest _ _ ihInner ihRest =>
      rw [List.append_cons, List.foldl_append, foldl_act_scope (ihInner scopes.push)]
      exact ihRest scopes

end

/-- The scopes after some actions, from the one that holds the built-in names. -/
def after (builtins : Builtins) (actions : List (ScopeAction Ty)) : Scopes Ty :=
  actions.foldl act (.ofRoot builtins.signatures)

end Scopes

/-- The snapshots after some actions, from the one that shows the built-in names. -/
def Snapshots.after (builtins : Builtins) (actions : List (ScopeAction Ty)) : Snapshots Ty :=
  actions.foldl act ⟨builtins.signature?, []⟩

namespace Scopes

theorem snapshots_after (builtins : Builtins) (actions : List (ScopeAction Ty)) :
    (after builtins actions).snapshots = Snapshots.after builtins actions := by
  rw [after, snapshots_foldl, snapshots, Stmt.lookup?_ofRoot_signatures]
  rfl

/-- Frames and snapshots that begin with the same built-in names have the same depth and show the
same of every name, whatever was entered, left and declared.  Entering a scope, balanced actions and
leaving it change nothing that is visible. -/
theorem after_shows_snapshots (builtins : Builtins) (actions : List (ScopeAction Ty)) :
    (after builtins actions).depth = (Snapshots.after builtins actions).depth ∧
      (∀ name, (after builtins actions).lookup? name =
        (Snapshots.after builtins actions).visible name) ∧
      ∀ inner, ScopeAction.Balanced inner → ∀ name,
        (after builtins (actions ++ (.push :: inner ++ [.pop]))).lookup? name =
          (after builtins actions).lookup? name := by
  refine ⟨?_, fun name => ?_, fun inner hinner name => ?_⟩
  · rw [← snapshots_after, depth_snapshots]
  · rw [← snapshots_after]
    rfl
  · have hkept := frames_tail_foldl hinner (after builtins actions).push
    have hscope := foldl_act_scope hkept
    rw [after, List.foldl_append]
    exact congrArg (fun scopes => scopes.lookup? name) hscope

/-- Two scopes that are entered, the inner one with a declaration that hides one of the outer. -/
def shadowing : List (ScopeAction Ty) :=
  [.declare "x" .bool, .push, .declare "x" .void, .declare "x" .int, .pop, .declare "y" .int]

theorem after_shows_snapshots_shadowing :
    ScopeAction.Balanced shadowing ∧
      ∀ name, (after .standard ([.pop, .declare "x" .int] ++ (.push :: shadowing ++ [.pop]))).lookup?
          name = (after .standard [.pop, .declare "x" .int]).lookup? name := by
  have hbalanced : ScopeAction.Balanced shadowing :=
    .declare _ _ (.scope (.declare _ _ (.declare _ _ .nil)) (.declare _ _ .nil))
  exact ⟨hbalanced,
    (after_shows_snapshots .standard [.pop, .declare "x" .int]).2.2 shadowing hbalanced⟩

end Scopes

end WhileCompiler
