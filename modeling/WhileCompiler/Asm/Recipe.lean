import WhileCompiler.Asm.Text

/-!
# Recipes

A recipe is a fixed sequence of instructions for operands that are still open.
-/

namespace WhileCompiler.Asm

/-- An operand of a recipe: one that is fixed, or one of the `arity` that the recipe is given. -/
inductive Slot (arity : Nat)
  | fixed (operand : Operand)
  | argument (index : Fin arity)
  deriving DecidableEq, Repr

/-- Instructions that leave their result in `%eax`. -/
structure Recipe where
  arity : Nat
  body : List (Instruction (Slot arity))

namespace Recipe

/-- The instructions of a recipe for given operands. -/
def fill {α : Type} (recipe : Recipe) (fixed : Operand → α)
    (arguments : Fin recipe.arity → α) : List (Instruction α) :=
  recipe.body.map fun instruction => instruction.map fun
    | .fixed operand => fixed operand
    | .argument index => arguments index

/-- The instructions of a recipe for operands of the right number. -/
def instructions (recipe : Recipe) (operands : List Operand)
    (hcount : operands.length = recipe.arity) : List (Instruction Operand) :=
  recipe.fill id fun index => operands[index]

/-- The lines of a recipe for operands that are given as text.  Further operands are ignored. -/
def lines? (recipe : Recipe) (operands : List String) : Option (List String) :=
  if hcount : recipe.arity ≤ operands.length then
    some ((recipe.fill Operand.text fun index => operands[index]).map (Instruction.text id))
  else none

/-- No recipe asks for more operands than it takes. -/
theorem isSome_lines? (recipe : Recipe) {operands : List String}
    (hcount : recipe.arity ≤ operands.length) : (recipe.lines? operands).isSome := by
  rw [lines?, dif_pos hcount]
  rfl

/-- Filling a recipe with the texts of operands gives the texts of its instructions for them. -/
theorem lines?_map_text (recipe : Recipe) {operands : List Operand}
    (hcount : operands.length = recipe.arity) :
    recipe.lines? (operands.map Operand.text) =
      some ((recipe.instructions operands hcount).map (Instruction.text Operand.text)) := by
  rw [lines?, dif_pos (by simp [hcount]), instructions, fill, fill, List.map_map, List.map_map]
  refine congrArg some (List.map_congr_left fun instruction _ => ?_)
  simp only [Function.comp_apply, Instruction.text_map]
  congr 1
  funext slot
  cases slot with
  | fixed operand => rfl
  | argument index => simp

end Recipe

end WhileCompiler.Asm
