import WhileCompiler.Operator
import WhileCompiler.Semantics.Outcome

/-!
# What calls do

Programs act on the world only by calling functions, operators included.  A call may read and change
the state of the world and may fail, but it cannot touch the variables of the program.
-/

namespace WhileCompiler.Semantics

/-- The meaning of every function: what a call by its name gives for argument values. -/
abbrev Calls (σ ε : Type) :=
  (function : String) → (arguments : List Int32) → (state : σ) → Except ε Int32 × σ

/-- Makes a call. -/
def Calls.invoke {σ ε : Type} (calls : Calls σ ε) (function : String) (arguments : List Int32)
    (state : σ) : Outcome σ ε Int32 :=
  match calls function arguments state with
  | (.ok value, state) => .done value state
  | (.error error, state) => .failed error state

/-- Why a call fails on a console. -/
inductive ConsoleError
  | inputExhausted
  | divisionByZero
  | unknownFunction (name : String)
  | wrongCount
  deriving DecidableEq, Repr

/-- A truth value as a number. -/
def flag (value : Bool) : Int32 :=
  if value then 1 else 0

/-- What an operator gives.  Arithmetic wraps around, and division rounds towards zero. -/
def applyOperator : Operator → List Int32 → Except ConsoleError Int32
  | .add, [left, right] => .ok (left + right)
  | .subtract, [left, right] => .ok (left - right)
  | .multiply, [left, right] => .ok (left * right)
  | .divide, [left, right] => if right = 0 then .error .divisionByZero else .ok (left / right)
  | .remainder, [left, right] => if right = 0 then .error .divisionByZero else .ok (left % right)
  | .compare .less, [left, right] => .ok (flag (left < right))
  | .compare .greater, [left, right] => .ok (flag (left > right))
  | .compare .lessOrEqual, [left, right] => .ok (flag (left ≤ right))
  | .compare .greaterOrEqual, [left, right] => .ok (flag (left ≥ right))
  | .compare .equal, [left, right] => .ok (flag (left = right))
  | .compare .notEqual, [left, right] => .ok (flag (left ≠ right))
  | .not, [value] => .ok (value ^^^ 1)
  | .negate, [value] => .ok (-value)
  | _, _ => .error .wrongCount

/-- Numbers that are still to be read, and numbers that have been printed. -/
structure Console where
  input : List Int32
  output : List Int32
  deriving DecidableEq, Repr

/-- Prints a number.  The value that this leaves depends only on how many were printed before. -/
def Console.print (leftByPrint : Nat → Int32) (console : Console) (value : Int32) :
    Except ConsoleError Int32 × Console :=
  (.ok (leftByPrint console.output.length), { console with output := console.output ++ [value] })

/-- Reads the next number. -/
def Console.read (console : Console) : Except ConsoleError Int32 × Console :=
  match console.input with
  | [] => (.error .inputExhausted, console)
  | value :: rest => (.ok value, { console with input := rest })

/-- The standard functions on a console. -/
def Console.calls (leftByPrint : Nat → Int32) : Calls Console ConsoleError :=
  fun function arguments console =>
    match Operator.ofName? function with
    | some operator => (applyOperator operator arguments, console)
    | none =>
      if function = "printInt" then
        match arguments with
        | [value] => console.print leftByPrint value
        | _ => (.error .wrongCount, console)
      else if function = "readInt" then
        match arguments with
        | [] => console.read
        | _ => (.error .wrongCount, console)
      else (.error (.unknownFunction function), console)

end WhileCompiler.Semantics
