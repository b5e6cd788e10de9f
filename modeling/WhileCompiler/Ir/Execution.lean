import WhileCompiler.Ir.Basic
import WhileCompiler.Semantics.Calls

/-!
# Executing three-address code

Commands are executed one after the other, unless a jump goes elsewhere.  A run ends behind the last
command, and a jump to a label that does not exist never gets anywhere.
-/

namespace WhileCompiler.Ir

open Semantics

/-- Where control is, and the values of the variables. -/
structure Point where
  position : Nat
  values : String → Int32

def Value.read (values : String → Int32) : Value → Int32
  | .constant value => value
  | .variable name => values name

namespace Point

variable {σ ε : Type}

/-- Sets a variable and goes on to the next command. -/
def assign (point : Point) (name : String) (value : Int32) : Point where
  position := point.position + 1
  values other := if other = name then value else point.values other

def next (point : Point) : Point :=
  { point with position := point.position + 1 }

/-- Goes on behind a label. -/
def jump (point : Point) (code : List Command) (target : String) (state : σ) :
    Outcome σ ε (Point × Bool) :=
  match code.idxOf? (.label target) with
  | some position => .done ({ point with position := position + 1 }, true) state
  | none => .unfinished

/-- Executes the command at a point, and says whether the run goes on. -/
def step (calls : Calls σ ε) (code : List Command) (point : Point) (state : σ) :
    Outcome σ ε (Point × Bool) :=
  match code[point.position]? with
  | none => .done (point, false) state
  | some (.copy destination value) =>
    .done (point.assign destination (value.read point.values), true) state
  | some (.call destination function arguments) =>
    (calls.invoke function (arguments.map (Value.read point.values)) state).bind
      fun result state => .done (point.assign destination result, true) state
  | some (.label _) => .done (point.next, true) state
  | some (.jump target) => point.jump code target state
  | some (.jumpIf target condition) =>
    if condition.read point.values = 0 then .done (point.next, true) state
    else point.jump code target state
  | some (.jumpUnless target condition) =>
    if condition.read point.values = 0 then point.jump code target state
    else .done (point.next, true) state

/-- Executes at most `limit` commands from a point. -/
def run (calls : Calls σ ε) (code : List Command) (limit : Nat) (point : Point) (state : σ) :
    Outcome σ ε Point :=
  Outcome.iterate (step calls code) limit point state

end Point

/-- Executes code from its start. -/
def run {σ ε : Type} (calls : Calls σ ε) (code : List Command) (limit : Nat)
    (values : String → Int32) (state : σ) : Outcome σ ε (String → Int32) :=
  (Point.run calls code limit ⟨0, values⟩ state).bind fun point state =>
    .done point.values state

end WhileCompiler.Ir
