import WhileCompiler.Proofs.Asm.ReportedFaults
import WhileCompiler.Proofs.Ir.TypedCode
import WhileCompiler.Proofs.Typing.Checking

/-!
# Operators and their recipes

The checker goes by the types of the operators, and the code that is emitted for them by their
recipes.  The two never disagree about a program that has been checked: whatever the host has
announced and whatever the program declares, a name with a recipe still has the type that the recipe
was made for.
-/

namespace WhileCompiler

open Ir

namespace Asm

variable {builtins : Builtins}

/-- Types and recipes agree about the calls in code. -/
structure HonorsRecipes (builtins : Builtins) (code : List Command) : Prop where
  /-- A name with a recipe has the type of a function of as many operands, and no routine has been
  announced in its place. -/
  signature : ∀ name recipe, builtins.recipe? name = some recipe →
    builtins.routines.get? name = none ∧ ∃ parameters result,
      builtins.signature? name = some (.function parameters result) ∧
        parameters.length = recipe.arity
  /-- What is called by a recipe is given as many operands as the recipe takes. -/
  count : ∀ destination function arguments recipe,
    .call destination function arguments ∈ code → builtins.recipe? function = some recipe →
      arguments.length = recipe.arity
  /-- No recipe asks for an operand that it is not given. -/
  filled : ∀ destination function arguments recipe,
    .call destination function arguments ∈ code → builtins.recipe? function = some recipe →
      ∀ operands : List String, operands.length = arguments.length →
        (recipe.lines? operands).isSome
  /-- Emission never fails for a number of operands. -/
  faultless : ∀ function expected given,
    listing builtins code ≠ .error (.wrongCount function expected given)

theorem signature_of_recipe? {name : String} {recipe : Recipe}
    (hrecipe : builtins.recipe? name = some recipe) :
    builtins.routines.get? name = none ∧ ∃ parameters result,
      builtins.signature? name = some (.function parameters result) ∧
        parameters.length = recipe.arity := by
  rw [Builtins.recipe?, Option.map_eq_some_iff] at hrecipe
  obtain ⟨operator, hoperator, rfl⟩ := hrecipe
  constructor
  · cases hroutine : builtins.routines.get? name with
    | none => rfl
    | some type =>
        have hname := Builtins.isIdentifier_of_get? hroutine
        rw [Builtins.operator?_of_isIdentifier hname] at hoperator
        cases hoperator
  · obtain ⟨parameters, result, htype, harity⟩ := operator.type_eq_function
    refine ⟨parameters, result, ?_, harity⟩
    rw [Builtins.signature?_of_operator? hoperator, htype]

theorem honorsRecipes_of_hasCount {code : List Command}
    (hcounts : ∀ command ∈ code, HasCount builtins command) : HonorsRecipes builtins code where
  signature _ _ := signature_of_recipe?
  count destination function arguments recipe hmem :=
    hcounts _ hmem destination function arguments recipe rfl
  filled destination function arguments recipe hmem hrecipe operands hlength := by
    have hcount := hcounts _ hmem destination function arguments recipe rfl hrecipe
    exact recipe.isSome_lines? (Nat.le_of_eq (hlength.trans hcount).symm)
  faultless function expected given hlisting := by
    rw [listing, bind_pure_eq_error] at hlisting
    obtain ⟨before, command, after, rfl, -, hfault⟩ := ofCommands_eq_error_iff.1 hlisting
    have hcount := hcounts command (List.mem_append_right before List.mem_cons_self)
    cases hfault with
    | count hrecipe hne => exact hne ((hasCount_call_iff hrecipe).1 hcount)

end Asm

namespace Stmt

/-- Types and recipes never disagree about a program that has been checked, whichever routines the
host has announced and whatever the program declares, functions and names that no source spells
included. -/
theorem checked_program_honors_recipes (builtins : Builtins) (program : Stmt)
    (hcheck : program.checkProgram builtins = .ok ()) :
    Asm.HonorsRecipes builtins program.toIr := by
  obtain ⟨after, htyped⟩ := wellTyped_of_checkProgram hcheck
  exact Asm.honorsRecipes_of_hasCount (hasCount_toIr htyped)

/-- A program that calls a function through a variable, under a sign and an operator, and keeps a
truth value under a name that no source spells. -/
def indirectCalls : Stmt :=
  .block [
    .declaration "next" (.function [.int] .int) (.var "successor"),
    .declaration "$flag" .bool
      (.unary "!" (.binary "<" (.call "next" [.int 1]) (.unary "-" (.int 5)))),
    .loop (.var "$flag") (.expression (.call "unary-" [.call "+" [.int 1, .int 2]]))]

theorem checked_program_honors_recipes_indirect :
    ∃ builtins, Builtins.operators.announce [("successor", .function [.int] .int)] = .ok builtins ∧
      indirectCalls.checkProgram builtins = .ok () ∧
      Asm.HonorsRecipes builtins indirectCalls.toIr ∧
      .call "$resultOf_unary-_2" "unary-" [.variable "$resultOf_+_1"] ∈ indirectCalls.toIr := by
  refine ⟨_, rfl, rfl, ?_, ?_⟩
  · exact checked_program_honors_recipes _ indirectCalls rfl
  · decide

end Stmt

end WhileCompiler
