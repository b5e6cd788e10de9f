import WhileCompiler.Scopes

/-!
# Scopes as snapshots

Another picture of lexical scopes: a stack of maps, each of which holds everything that is visible.
Entering a scope copies the map on top, a declaration changes that map only, and leaving the scope
drops it.
-/

namespace WhileCompiler

/-- What is visible now, and what was visible when each enclosing scope was left off. -/
structure Snapshots (α : Type) where
  visible : String → Option α
  saved : List (String → Option α)

namespace Snapshots

variable {α : Type}

def depth (snapshots : Snapshots α) : Nat :=
  snapshots.saved.length + 1

def push (snapshots : Snapshots α) : Snapshots α :=
  ⟨snapshots.visible, snapshots.visible :: snapshots.saved⟩

def pop (snapshots : Snapshots α) : Snapshots α :=
  match snapshots.saved with
  | [] => snapshots
  | visible :: saved => ⟨visible, saved⟩

def declare (snapshots : Snapshots α) (name : String) (value : α) : Snapshots α :=
  ⟨fun other => if other = name then some value else snapshots.visible other, snapshots.saved⟩

end Snapshots

/-- What can be done to scopes. -/
inductive ScopeAction (α : Type)
  | push
  | pop
  | declare (name : String) (value : α)
  deriving Repr

def Scopes.act {α : Type} (scopes : Scopes α) : ScopeAction α → Scopes α
  | .push => scopes.push
  | .pop => scopes.pop
  | .declare name value => scopes.declare name value

def Snapshots.act {α : Type} (snapshots : Snapshots α) : ScopeAction α → Snapshots α
  | .push => snapshots.push
  | .pop => snapshots.pop
  | .declare name value => snapshots.declare name value

end WhileCompiler
