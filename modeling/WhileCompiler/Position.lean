/-!
# Positions in a source text

Lines and columns count from one.  A column is a number of characters: a line feed starts a new
line, and a carriage return takes no column.
-/

namespace WhileCompiler

structure Position where
  line : Nat
  column : Nat
  deriving DecidableEq, Repr

namespace Position

/-- Where every text begins. -/
def start : Position := ⟨1, 1⟩

/-- The position behind a character that stands at `position`. -/
def next (position : Position) (c : Char) : Position :=
  if c = '\n' then ⟨position.line + 1, 1⟩
  else if c = '\r' then position
  else ⟨position.line, position.column + 1⟩

/-- The position behind a text that begins at `position`. -/
def after (position : Position) (chars : List Char) : Position :=
  chars.foldl next position

@[simp] theorem after_nil (position : Position) : position.after [] = position := rfl

@[simp] theorem after_cons (position : Position) (c : Char) (rest : List Char) :
    position.after (c :: rest) = (position.next c).after rest := rfl

theorem after_append (position : Position) (left right : List Char) :
    position.after (left ++ right) = (position.after left).after right :=
  List.foldl_append

end Position

end WhileCompiler
