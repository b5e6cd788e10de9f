import WhileCompiler.Proofs.Ir.TypedLowering
import WhileCompiler.Proofs.Machine.RecipeResults

/-!
# Truth values

Three-address code does not tell truth values from numbers, and negation only flips the last bit of
its operand.  What makes this right is that the places where typing asks for a truth value never see
another number than zero or one.
-/

namespace WhileCompiler

open Asm Ir Machine Semantics

/-- A number that stands for a truth value. -/
def IsTruthValue (value : Int32) : Prop :=
  value = 0 ∨ value = 1

theorem isTruthValue_flag (value : Bool) : IsTruthValue (flag value) := by
  cases value
  · exact .inl rfl
  · exact .inr rfl

/-- Flipping the last bit of a truth value negates it. -/
theorem IsTruthValue.negated {value : Int32} (hvalue : IsTruthValue value) :
    IsTruthValue (value ^^^ 1) ∧ (value ^^^ 1 = 0 ↔ value ≠ 0) := by
  rcases hvalue with rfl | rfl
  · exact ⟨.inr rfl, by decide⟩
  · exact ⟨.inl rfl, by decide⟩

/-- Only the numbers for truth values are restricted. -/
def Ranges.truth : Ranges
  | .bool, value => IsTruthValue value
  | .int, _ | .void, _ | .function _ _, _ => True

/-- Routines that promise a truth value return one. -/
def ReturnsTruthValues {σ ε : Type} (builtins : Builtins) (calls : Calls σ ε) : Prop :=
  ∀ function parameters arguments state value final, builtins.recipe? function = none →
    builtins.signature? function = some (.function parameters .bool) →
      calls function arguments state = (.ok value, final) → IsTruthValue value

section

variable {σ ε : Type} {builtins : Builtins} {calls : Calls σ ε}

theorem Ranges.truth_of_ne {type : Ty} (htype : type ≠ .bool) (value : Int32) :
    Ranges.truth type value := by
  cases type with
  | bool => exact absurd rfl htype
  | int | void | function => trivial

/-- Operators that give truth values do so for operands in the ranges of their types. -/
theorem isTruthValue_of_applyOperator {operator : Operator} {parameters : List Ty}
    (htype : operator.type = .function parameters .bool) {arguments : List Int32}
    (harguments : List.Forall₂ (fun argument type => Ranges.truth type argument) arguments
      parameters) {value : Int32} (hvalue : applyOperator operator arguments = .ok value) :
    IsTruthValue value := by
  cases operator with
  | compare condition =>
      obtain ⟨rfl, -⟩ := Ty.function.inj htype
      obtain ⟨left, rest, -, hrest, rfl⟩ := List.forall₂_cons_right_iff.1 harguments
      obtain ⟨right, none, -, hnone, rfl⟩ := List.forall₂_cons_right_iff.1 hrest
      obtain rfl := List.forall₂_nil_right_iff.1 hnone
      cases condition <;> cases hvalue <;> exact isTruthValue_flag _
  | not =>
      obtain ⟨rfl, -⟩ := Ty.function.inj htype
      obtain ⟨operand, rest, hoperand, hrest, rfl⟩ := List.forall₂_cons_right_iff.1 harguments
      obtain rfl := List.forall₂_nil_right_iff.1 hrest
      cases hvalue
      exact hoperand.negated.1
  | add | subtract | multiply | divide | remainder | negate => cases htype

/-- Truth values stay truth values, if operators and routines keep to their types. -/
theorem areKept_truth (hoperators : FollowsRecipes builtins calls)
    (hroutines : ReturnsTruthValues builtins calls) :
    Ranges.truth.AreKept builtins calls where
  int _ := trivial
  bool := isTruthValue_flag
  call := by
    intro function parameters result arguments state value final hfunction harguments hcall
    by_cases hresult : result = .bool
    · subst hresult
      cases hoperator : builtins.operator? function with
      | none =>
          have hrecipe : builtins.recipe? function = none := by
            rw [Builtins.recipe?, hoperator]
            rfl
          exact hroutines function parameters arguments state value final hrecipe hfunction hcall
      | some operator =>
          have htype : operator.type = .function parameters .bool :=
            Option.some.inj ((Builtins.signature?_of_operator? hoperator).symm.trans hfunction)
          obtain ⟨expected, outcome, hexpected, harity⟩ := operator.type_eq_function
          have hcount : arguments.length = operator.recipe.arity := by
            rw [harguments.length_eq, ← harity, (Ty.function.inj (htype.symm.trans hexpected)).1]
          exact isTruthValue_of_applyOperator htype harguments
            (followsRecipes_iff.1 hoperators _ _ _ _ _ _ hoperator hcall hcount)
    · exact Ranges.truth_of_ne hresult value

end

namespace Compiler

/-- In an accepted program, whatever is tested or negated is zero or one, so that negation turns
every test around.  The routines of the host are functions, and those that promise truth values
return them. -/
theorem truth_values_stay {σ ε : Type} (start builtins : Builtins)
    (hstart : start = .operators ∨ start = .standard) (routines : List (String × Ty))
    (hroutines : ∀ routine ∈ routines, ¬ routine.2.IsValue)
    (hannounce : start.announce routines = .ok builtins) (source : String) (program : Stmt)
    (hparse : parse source = .ok program) (hcheck : program.checkProgram builtins = .ok ())
    (calls : Calls σ ε) (hoperators : FollowsRecipes builtins calls)
    (hreturns : ReturnsTruthValues builtins calls) (values : String → Int32) (state : σ)
    (count : Nat) (point : Point) (final : σ)
    (hsteps : Steps calls program.toIr count ⟨0, values⟩ state point final) :
    (∀ target condition, program.toIr[point.position]? = some (.jumpUnless target condition) →
        IsTruthValue (condition.read point.values)) ∧
      ∀ destination arguments,
        program.toIr[point.position]? = some (.call destination "!" arguments) →
          ∃ operand, arguments = [operand] ∧ IsTruthValue (operand.read point.values) ∧
            ∀ next after, point.step calls program.toIr final = .done (next, true) after →
              (next.values destination = 0 ↔ operand.read point.values ≠ 0) := by
  have hfunctions : builtins.AllTypes fun type => ¬ type.IsValue := by
    refine Builtins.AllTypes.announce ?_ hroutines hannounce
    have hoperator (operator : Operator) : ¬ operator.type.IsValue :=
      operator.isFirstOrder_type.not_isValue
    rcases hstart with rfl | rfl
    · exact Builtins.allTypes_operators hoperator
    · exact Builtins.allTypes_standard hoperator id id
  have hnot : builtins.operator? "!" = some .not := by
    have hhas : builtins.hasOperators = true := by
      rw [Builtins.hasOperators_of_announce hannounce]
      rcases hstart with rfl | rfl <;> rfl
    rw [Builtins.operator?, if_pos hhas]
    rfl
  have hkept := areKept_truth hoperators hreturns
  obtain ⟨labels, after, hcode⟩ := Stmt.exists_isTyped hparse hcheck
  have hnames : ∀ name type, builtins.signature? name = some type →
      Ranges.truth type (values name) := by
    intro name type hname
    refine Ranges.truth_of_ne ?_ _
    rintro rfl
    exact hfunctions name _ hname trivial
  obtain ⟨context, hflows, hconforms⟩ := hcode.run hkept hnames hsteps
  constructor
  · intro target condition hcommand
    rw [drop_eq_cons hcommand] at hflows
    cases hflows with
    | jumpUnless hcondition _ _ _ => exact hconforms.read hkept hcondition
  · intro destination arguments hcommand
    rw [drop_eq_cons hcommand] at hflows
    cases hflows with
    | call hfunction harguments _ =>
        rw [Builtins.signature?_of_operator? hnot] at hfunction
        obtain ⟨rfl, -⟩ := Ty.function.inj (Option.some.inj hfunction)
        obtain ⟨operand, rest, hoperand, hrest, rfl⟩ := List.forall₂_cons_right_iff.1 harguments
        obtain rfl := List.forall₂_nil_right_iff.1 hrest
        have htruth : IsTruthValue (operand.read point.values) := hconforms.read hkept hoperand
        refine ⟨operand, rfl, htruth, fun next after hstep => ?_⟩
        obtain ⟨value, hcall, rfl⟩ := eq_assign_of_step_call hcommand hstep
        have hvalue : operand.read point.values ^^^ 1 = value :=
          Except.ok.inj (followsRecipes_iff.1 hoperators _ _ _ _ _ _ hnot hcall rfl)
        have hassigned : (point.assign destination value).values destination = value := if_pos rfl
        rw [hassigned, ← hvalue]
        exact htruth.negated.2

/-- The standard routines and one that says whether something has been printed. -/
def withReady : Builtins :=
  Builtins.standard.insert "isReady" (.function [] .bool) (by decide)

def readyCalls : Calls Console ConsoleError :=
  fun function arguments console =>
    if function = "isReady" then (.ok (flag (console.output ≠ [])), console)
    else Console.calls (fun _ => 0) function arguments console

theorem followsRecipes_ready : FollowsRecipes withReady readyCalls := by
  rw [followsRecipes_iff]
  intro function operator arguments state value final hoperator hcall _
  have hname : function ≠ "isReady" := by
    rintro rfl
    cases hoperator
  have hfound : Operator.ofName? function = some operator := hoperator
  simp only [readyCalls, if_neg hname, Console.calls, hfound] at hcall
  exact (Prod.mk.inj hcall).1

theorem returnsTruthValues_ready : ReturnsTruthValues withReady readyCalls := by
  intro function parameters arguments state value final hrecipe hfunction hcall
  have hoperator : withReady.operator? function = none := Option.map_eq_none_iff.1 hrecipe
  have hroutine : withReady.routines.get? function = some (.function parameters .bool) := by
    rwa [Builtins.signature?_eq, hoperator] at hfunction
  obtain ⟨before, after, hentries, -⟩ := List.lookup_eq_some_iff.1 hroutine
  have hall : withReady.routines.entries = [("isReady", .function [] .bool),
      ("readInt", .function [] .int), ("printInt", .function [.int] .void)] := rfl
  have hmem : (function, Ty.function parameters .bool) ∈ withReady.routines.entries := by
    rw [hentries]
    simp
  obtain ⟨hready, -⟩ : function = "isReady" ∧ parameters = [] := by simpa [hall] using hmem
  rw [readyCalls, if_pos hready] at hcall
  obtain rfl := Except.ok.inj (Prod.mk.inj hcall).1
  exact isTruthValue_flag _

/-- A source that prints until a routine returns true. -/
def waitingSource : String :=
  "while !isReady() do printInt(1);"

def waiting : Stmt :=
  .loop (.unary "!" (.call "isReady" [])) (.expression (.call "printInt" [.int 1]))

theorem parse_waiting : parse waitingSource = .ok waiting := by
  cbv

/-- The run negates what the routine has returned after two commands. -/
theorem truth_values_stay_waiting :
    (Builtins.standard = .operators ∨ Builtins.standard = .standard) ∧
      (∀ routine ∈ [("isReady", Ty.function [] .bool)], ¬ routine.2.IsValue) ∧
      Builtins.standard.announce [("isReady", .function [] .bool)] = .ok withReady ∧
      parse waitingSource = .ok waiting ∧ waiting.checkProgram withReady = .ok () ∧
      FollowsRecipes withReady readyCalls ∧ ReturnsTruthValues withReady readyCalls ∧
      ∃ point final, Steps readyCalls waiting.toIr 2 ⟨0, fun _ => 7⟩ ⟨[], []⟩ point final ∧
        waiting.toIr[point.position]? =
          some (.call "$resultOf_!_1" "!" [.variable "$resultOf_isReady_1"]) ∧
        IsTruthValue (point.values "$resultOf_isReady_1") := by
  have hroutines : ∀ routine ∈ [("isReady", Ty.function [] .bool)], ¬ routine.2.IsValue := by
    simp [Ty.IsValue]
  have hsteps : ∃ point final, point.position = 2 ∧
      Steps readyCalls waiting.toIr 2 ⟨0, fun _ => 7⟩ ⟨[], []⟩ point final :=
    ⟨_, _, rfl, .step rfl (.step rfl .refl)⟩
  obtain ⟨point, final, hposition, hsteps⟩ := hsteps
  have hcommand : waiting.toIr[point.position]? =
      some (.call "$resultOf_!_1" "!" [.variable "$resultOf_isReady_1"]) := by
    rw [hposition]
    rfl
  refine ⟨.inr rfl, hroutines, rfl, parse_waiting, rfl, followsRecipes_ready,
    returnsTruthValues_ready, point, final, hsteps, hcommand, ?_⟩
  obtain ⟨operand, hoperand, htruth, -⟩ := (truth_values_stay .standard withReady (.inr rfl) _
    hroutines rfl waitingSource waiting parse_waiting rfl readyCalls followsRecipes_ready
    returnsTruthValues_ready _ _ 2 point final hsteps).2 _ _ hcommand
  obtain rfl := (List.cons.inj hoperand).1
  exact htruth

end Compiler

end WhileCompiler
