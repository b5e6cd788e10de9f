import WhileCompiler.Proofs.Machine.Execution

/-!
# What recipes give

The instructions of a recipe can be run on their own, on constants.  What they leave in the
accumulator is what the operator gives, so that calls which follow the recipes are those which
compute the operators.
-/

namespace WhileCompiler

open Asm Semantics

namespace Machine

/-- A program that consists of a block of instructions. -/
def Program.alone (block : List (Instruction Operand)) : Program :=
  ⟨(block.map .run).toArray, .empty⟩

theorem loaded_alone (block : List (Instruction Operand)) :
    Loaded (.alone block) 0 block := by
  intro index instruction hinstruction
  rw [Program.alone, Nat.zero_add, List.getElem?_toArray, List.getElem?_map, hinstruction]
  rfl

/-- Nothing stands behind the block. -/
theorem step_alone {block : List (Instruction Operand)} {state : State}
    (hposition : state.position = block.length) :
    state.step (.alone block) = .failed (.noInstruction block.length) := by
  have hcell : (Program.alone block).code[state.position]? = none := by
    rw [Program.alone, hposition, List.getElem?_toArray]
    exact List.getElem?_eq_none (Nat.le_of_eq (List.length_map _))
  rw [State.step, hcell, hposition]

/-- The instructions of a recipe for constants. -/
def recipeBlock (recipe : Recipe) (arguments : List Int32)
    (hcount : arguments.length = recipe.arity) : List (Instruction Operand) :=
  recipe.instructions (arguments.map fun value => .constant value.toInt)
    ((List.length_map _).trans hcount)

/-- A value that the instructions of a recipe leave in the accumulator. -/
def Gives (recipe : Recipe) (arguments : List Int32) (hcount : arguments.length = recipe.arity)
    (value : Int32) : Prop :=
  Evaluates (.alone (recipeBlock recipe arguments hcount)) (.initial 0 [])
    (recipeBlock recipe arguments hcount) value

theorem performs_alone {operator : Operator} {arguments : List Int32}
    (hcount : arguments.length = operator.recipe.arity) :
    Performs (.alone (recipeBlock operator.recipe arguments hcount)) (.initial 0 [])
      (recipeBlock operator.recipe arguments hcount) (applyOperator operator arguments) := by
  have hsources : ∀ operand ∈ arguments.map fun value => Operand.constant value.toInt,
      IsSource operand := by
    intro operand hmem
    obtain ⟨value, -, rfl⟩ := List.mem_map.1 hmem
    trivial
  have hvalues : (arguments.map fun value => Operand.constant value.toInt).map
      (State.initial 0 []).read = arguments := by
    rw [List.map_map]
    refine (List.map_congr_left fun value _ => ?_).trans (List.map_id arguments)
    exact Int32.ofInt_toInt value
  have hloaded : Loaded (.alone (recipeBlock operator.recipe arguments hcount))
      (State.initial 0 []).position (recipeBlock operator.recipe arguments hcount) :=
    loaded_alone _
  have hrecipe := performs_recipe ((List.length_map _).trans hcount) hsources hloaded
  rwa [hvalues] at hrecipe

/-- The recipe of an operator gives what the operator does. -/
theorem gives_iff {operator : Operator} {arguments : List Int32}
    (hcount : arguments.length = operator.recipe.arity) {value : Int32} :
    Gives operator.recipe arguments hcount value ↔
      applyOperator operator arguments = .ok value := by
  have hperforms := performs_alone hcount
  constructor
  · rintro ⟨count, last, -, hruns, hlast⟩
    have hend := step_alone (hlast.position.trans (Nat.zero_add _))
    have hstuck := ne_running_of_failed hend
    cases happly : applyOperator operator arguments with
    | ok other =>
        rw [happly] at hperforms
        obtain ⟨more, final, -, hmore, hfinal⟩ := hperforms
        have hfinalEnd := step_alone (hfinal.position.trans (Nat.zero_add _))
        obtain rfl := hruns.eq_of_stuck hmore hstuck (ne_running_of_failed hfinalEnd)
        rw [← hlast.result, ← hfinal.result]
    | error error =>
        rw [happly] at hperforms
        obtain ⟨-, more, middle, hmore, hfailed⟩ := hperforms
        obtain rfl := hruns.eq_of_stuck hmore hstuck (ne_running_of_failed hfailed)
        rw [hend] at hfailed
        cases hfailed
  · intro hvalue
    rwa [hvalue] at hperforms

/-- Calls that follow the recipes: whenever a call of an operator returns, it gives what the
instructions of the operator leave in the accumulator. -/
def FollowsRecipes {σ ε : Type} (builtins : Builtins) (calls : Calls σ ε) : Prop :=
  ∀ function recipe arguments state value final, builtins.recipe? function = some recipe →
    calls function arguments state = (.ok value, final) →
      ∀ hcount : arguments.length = recipe.arity, Gives recipe arguments hcount value

theorem followsRecipes_iff {σ ε : Type} {builtins : Builtins} {calls : Calls σ ε} :
    FollowsRecipes builtins calls ↔
      ∀ function operator arguments state value final,
        builtins.operator? function = some operator →
        calls function arguments state = (.ok value, final) →
        arguments.length = operator.recipe.arity →
        applyOperator operator arguments = .ok value := by
  constructor
  · intro hfollows function operator arguments state value final hoperator hcall hcount
    have hrecipe : builtins.recipe? function = some operator.recipe := by
      rw [Builtins.recipe?, hoperator]
      rfl
    exact (gives_iff hcount).1 (hfollows _ _ _ _ _ _ hrecipe hcall hcount)
  · intro happly function recipe arguments state value final hrecipe hcall hcount
    obtain ⟨operator, hoperator, rfl⟩ := Option.map_eq_some_iff.1 hrecipe
    exact (gives_iff hcount).2 (happly _ _ _ _ _ _ hoperator hcall hcount)

end Machine

end WhileCompiler
