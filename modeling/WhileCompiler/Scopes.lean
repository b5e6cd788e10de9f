import WhileCompiler.Bindings

/-!
# Lexical scopes

A stack of frames of bindings.  An inner frame sees all bindings of the frames around it, and
leaving it restores what was visible before.  The outermost frame is never left.
-/

namespace WhileCompiler

/-- Frames of bindings: those that have been entered, innermost first, and the outermost one. -/
structure Scopes (α : Type) where
  entered : List (Bindings α)
  root : Bindings α
  deriving Repr

namespace Scopes

variable {α : Type}

def ofRoot (root : Bindings α) : Scopes α := ⟨[], root⟩

/-- Every frame, innermost first. -/
def frames (scopes : Scopes α) : List (Bindings α) :=
  scopes.entered ++ [scopes.root]

def depth (scopes : Scopes α) : Nat :=
  scopes.frames.length

/-- What the innermost binding of a name says. -/
def lookup? (scopes : Scopes α) (name : String) : Option α :=
  scopes.frames.findSome? fun frame => frame.get? name

def isBound (scopes : Scopes α) (name : String) : Bool :=
  (scopes.lookup? name).isSome

/-- Enters a new frame. -/
def push (scopes : Scopes α) : Scopes α :=
  ⟨.empty :: scopes.entered, scopes.root⟩

/-- Leaves the innermost frame, unless it is the outermost one. -/
def pop (scopes : Scopes α) : Scopes α :=
  ⟨scopes.entered.tail, scopes.root⟩

/-- Binds a name in the innermost frame. -/
def declare (scopes : Scopes α) (name : String) (value : α) : Scopes α :=
  match scopes.entered with
  | [] => ⟨[], scopes.root.insert name value⟩
  | top :: others => ⟨top.insert name value :: others, scopes.root⟩

@[simp] theorem pop_push (scopes : Scopes α) : scopes.push.pop = scopes := rfl

@[simp] theorem lookup?_push (scopes : Scopes α) (name : String) :
    scopes.push.lookup? name = scopes.lookup? name := rfl

theorem lookup?_declare (scopes : Scopes α) (name other : String) (value : α) :
    (scopes.declare name value).lookup? other =
      if other = name then some value else scopes.lookup? other := by
  cases hentered : scopes.entered with
  | nil =>
      by_cases hother : other = name <;>
        simp [declare, lookup?, frames, hentered, List.findSome?_cons, Bindings.get?_insert, hother]
  | cons top others =>
      by_cases hother : other = name <;>
        simp [declare, lookup?, frames, hentered, List.findSome?_cons, Bindings.get?_insert, hother]

end Scopes

end WhileCompiler
