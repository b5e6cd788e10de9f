import WhileCompiler.Text.Separated

/-!
# Types

Values are numbers or truth values.  Operators and routines have function types, and a routine may
return nothing of interest, which is the type `void`.
-/

namespace WhileCompiler

inductive Ty
  | int
  | bool
  | void
  | function (parameters : List Ty) (result : Ty)
  deriving Repr

namespace Ty

mutual

protected def decEq : (left right : Ty) → Decidable (left = right)
  | .int, .int | .bool, .bool | .void, .void => isTrue rfl
  | .function parameters result, .function parameters' result' =>
    match Ty.decEqs parameters parameters', Ty.decEq result result' with
    | isTrue hparameters, isTrue hresult => isTrue (by rw [hparameters, hresult])
    | isFalse hparameters, _ => isFalse fun heq => hparameters (Ty.function.inj heq).1
    | _, isFalse hresult => isFalse fun heq => hresult (Ty.function.inj heq).2
  | .int, .bool | .int, .void | .int, .function _ _
  | .bool, .int | .bool, .void | .bool, .function _ _
  | .void, .int | .void, .bool | .void, .function _ _
  | .function _ _, .int | .function _ _, .bool | .function _ _, .void => isFalse nofun

protected def decEqs : (left right : List Ty) → Decidable (left = right)
  | [], [] => isTrue rfl
  | first :: rest, first' :: rest' =>
    match Ty.decEq first first', Ty.decEqs rest rest' with
    | isTrue hfirst, isTrue hrest => isTrue (by rw [hfirst, hrest])
    | isFalse hfirst, _ => isFalse fun heq => hfirst (List.cons.inj heq).1
    | _, isFalse hrest => isFalse fun heq => hrest (List.cons.inj heq).2
  | [], _ :: _ | _ :: _, [] => isFalse nofun

end

instance : DecidableEq Ty := Ty.decEq

/-- The types that a declaration can name. -/
def ofName? : String → Option Ty
  | "int" => some int
  | "bool" => some bool
  | _ => none

/-- Nothing is converted implicitly: a value fits only where its own type is expected. -/
def fits (value expected : Ty) : Bool :=
  value = expected

mutual

def text : Ty → String
  | .int => "int"
  | .bool => "bool"
  | .void => "void"
  | .function parameters result =>
    s!"({Text.commaSeparated (texts parameters)}) -> {result.text}"

def texts : List Ty → List String
  | [] => []
  | first :: rest => first.text :: texts rest

end

theorem texts_eq_map (types : List Ty) : texts types = types.map text := by
  induction types with
  | nil => rfl
  | cons first rest ih => simp [texts, ih]

end Ty

end WhileCompiler
