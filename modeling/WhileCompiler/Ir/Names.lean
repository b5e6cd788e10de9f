import WhileCompiler.Bindings
import WhileCompiler.Text.Identifier

/-!
# Fresh names

Labels and temporaries are named by a stem and a number, and the names of each stem are numbered
from one.
-/

namespace WhileCompiler.Ir

/-- How many names have been drawn for each stem.  Counters of 32 bits, each with the number that
comes next, agree with these as long as fewer than `2 ^ 32 - 1` names are drawn for any one stem. -/
structure Names where
  drawn : Bindings Nat
  deriving Repr

namespace Names

def initial : Names := ⟨.empty⟩

/-- How many names the stem has given so far. -/
def count (names : Names) (stem : String) : Nat :=
  (names.drawn.get? stem).getD 0

/-- The next name of the stem. -/
def fresh (names : Names) (stem : String) : String × Names :=
  let number := names.count stem + 1
  (stem ++ toString number, ⟨names.drawn.insert stem number⟩)

theorem count_fresh (names : Names) (stem other : String) :
    (names.fresh stem).2.count other =
      if other = stem then names.count stem + 1 else names.count other := by
  simp only [fresh, count, Bindings.get?_insert]
  split <;> rfl

/-- The names that a list of stems gives in turn. -/
def draw (names : Names) : List String → List String
  | [] => []
  | stem :: rest =>
    let (name, names) := names.fresh stem
    name :: draw names rest

end Names

def elseStem : String := "else"

def endIfStem : String := "ifEnd"

def loopHeadStem : String := "whileHead"

def loopEndStem : String := "whileEnd"

def labelStems : List String :=
  [elseStem, endIfStem, loopHeadStem, loopEndStem]

/-- Whether a name has the shape of a label that is drawn for control flow. -/
def isGeneratedLabel (name : String) : Bool :=
  labelStems.any fun stem =>
    stem.toList.isPrefixOf name.toList && Text.isNumeral (name.toList.drop stem.length)

end WhileCompiler.Ir
