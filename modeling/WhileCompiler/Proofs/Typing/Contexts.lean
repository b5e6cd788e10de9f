import WhileCompiler.Proofs.Syntax.Variables
import WhileCompiler.Typing.Judgement

/-!
# The contexts of a well-typed program

A context only ever changes where a declaration adds a name that was not visible.  What holds of the
first context and is kept by all declarations of a program therefore holds wherever an expression of
the program is typed.
-/

namespace WhileCompiler

namespace Context

theorem extend_of_ne {context : Context} {name other : String} {type : Ty} (hne : other ≠ name) :
    context.extend name type other = context other :=
  if_neg hne

/-- A name that was visible is visible still. -/
theorem extend_of_some {context : Context} {name other : String} {type found : Ty}
    (hname : context name = none) (hother : context other = some found) :
    context.extend name type other = some found := by
  rw [extend_of_ne, hother]
  rintro rfl
  rw [hname] at hother
  cases hother

/-- Every name that is visible in one context means the same in another one. -/
def IsKeptIn (context later : Context) : Prop :=
  ∀ name type, context name = some type → later name = some type

theorem IsKeptIn.refl (context : Context) : context.IsKeptIn context :=
  fun _ _ hname => hname

theorem IsKeptIn.trans {first second third : Context} (hfirst : first.IsKeptIn second)
    (hsecond : second.IsKeptIn third) : first.IsKeptIn third :=
  fun name type hname => hsecond name type (hfirst name type hname)

theorem IsKeptIn.extend {context later : Context} (hkept : context.IsKeptIn later) (name : String)
    (type : Ty) : (context.extend name type).IsKeptIn (later.extend name type) := by
  intro other found hother
  by_cases hname : other = name
  · rw [Context.extend, if_pos hname] at hother ⊢
    exact hother
  · rw [extend_of_ne hname] at hother ⊢
    exact hkept other found hother

theorem isKeptIn_extend {context : Context} {name : String} (hname : context name = none)
    (type : Ty) : context.IsKeptIn (context.extend name type) :=
  fun _ _ hother => extend_of_some hname hother

/-- Nothing changes where a name gets the type that it has. -/
theorem isKeptIn_extend_self {context : Context} {name : String} {type : Ty}
    (hname : context name = some type) : context.IsKeptIn (context.extend name type) := by
  intro other found hother
  by_cases hsame : other = name
  · rw [hsame, hname] at hother
    rw [Context.extend, if_pos hsame, hother]
  · rwa [extend_of_ne hsame]

end Context

/-- What is done with an expression follows the rules of typing. -/
def Action.WellTyped (context : Context) : Action → Prop
  | .declare name type value => context name = none ∧ value.HasType context type
  | .assign name value => ∃ type, context name = some type ∧ value.HasType context type
  | .test condition => condition.HasType context .bool
  | .evaluate value => ∃ type, value.HasType context type

theorem Action.WellTyped.hasType {context : Context} {action : Action}
    (htyped : action.WellTyped context) : ∃ type, action.value.HasType context type := by
  cases action with
  | declare name type value => exact ⟨type, htyped.2⟩
  | assign name value =>
      obtain ⟨type, -, hvalue⟩ := htyped
      exact ⟨type, hvalue⟩
  | test condition => exact ⟨.bool, htyped⟩
  | evaluate value => exact htyped

namespace Stmt

/-- An invariant of contexts that declarations keep. -/
def KeptBy (invariant : Context → Prop) (actions : List Action) : Prop :=
  ∀ context name type value, .declare name type value ∈ actions → invariant context →
    context name = none → invariant (context.extend name type)

theorem KeptBy.mono {invariant : Context → Prop} {fewer more : List Action}
    (hkept : KeptBy invariant more) (hsubset : fewer ⊆ more) : KeptBy invariant fewer :=
  fun context name type value hmem => hkept context name type value (hsubset hmem)

/-- All that is done with expressions is typed where the invariant holds. -/
def TypedUnder (invariant : Context → Prop) (actions : List Action) : Prop :=
  ∀ action ∈ actions, ∃ context, invariant context ∧ action.WellTyped context

variable {invariant : Context → Prop}

theorem typedUnder_singleton {context : Context} (hcontext : invariant context) {action : Action}
    (haction : action.WellTyped context) : TypedUnder invariant [action] :=
  List.forall_mem_singleton.2 ⟨context, hcontext, haction⟩

mutual

/-- An invariant that the declarations keep holds wherever an action is typed. -/
theorem WellTyped.typedUnder {context after : Context} {statement : Stmt}
    (htyped : WellTyped context statement after) (hcontext : invariant context)
    (hkept : KeptBy invariant statement.actions) :
    invariant after ∧ TypedUnder invariant statement.actions := by
  cases statement with
  | empty =>
      cases htyped
      exact ⟨hcontext, by simp [TypedUnder, actions]⟩
  | block body =>
      cases htyped with
      | block hbody => exact ⟨hcontext, (hbody.typedUnder hcontext hkept).2⟩
  | declaration name type value =>
      cases htyped with
      | declaration hname hvalue =>
          exact ⟨hkept _ _ _ _ (List.mem_singleton_self _) hcontext hname,
            typedUnder_singleton hcontext ⟨hname, hvalue⟩⟩
  | assignment name value =>
      cases htyped with
      | assignment hname hvalue =>
          exact ⟨hcontext, typedUnder_singleton hcontext ⟨_, hname, hvalue⟩⟩
  | conditional condition thenBranch elseBranch =>
      cases htyped with
      | conditional hcondition hthen helse =>
          have hthenTyped := (hthen.typedUnder hcontext (hkept.mono fun action hmem =>
            List.mem_cons_of_mem _ (List.mem_append_left _ hmem))).2
          have helseTyped := (helse.typedUnder hcontext (hkept.mono fun action hmem =>
            List.mem_cons_of_mem _ (List.mem_append_right _ hmem))).2
          refine ⟨hcontext, ?_⟩
          rw [TypedUnder, actions, List.forall_mem_cons, List.forall_mem_append]
          exact ⟨⟨context, hcontext, hcondition⟩, hthenTyped, helseTyped⟩
  | loop condition body =>
      cases htyped with
      | loop hcondition hbody =>
          have hbodyTyped := (hbody.typedUnder hcontext (hkept.mono
            (List.subset_cons_self _ _))).2
          refine ⟨hcontext, ?_⟩
          rw [TypedUnder, actions, List.forall_mem_cons]
          exact ⟨⟨context, hcontext, hcondition⟩, hbodyTyped⟩
  | expression value =>
      cases htyped with
      | expression hvalue => exact ⟨hcontext, typedUnder_singleton hcontext ⟨_, hvalue⟩⟩

theorem AllWellTyped.typedUnder {context after : Context} {statements : List Stmt}
    (htyped : AllWellTyped context statements after) (hcontext : invariant context)
    (hkept : KeptBy invariant (actionsAll statements)) :
    invariant after ∧ TypedUnder invariant (actionsAll statements) := by
  cases statements with
  | nil =>
      cases htyped
      exact ⟨hcontext, by simp [TypedUnder, actionsAll]⟩
  | cons first rest =>
      cases htyped with
      | cons hfirst hrest =>
          have hfirstTyped := hfirst.typedUnder hcontext (hkept.mono (List.subset_append_left _ _))
          have hrestTyped := hrest.typedUnder hfirstTyped.1
            (hkept.mono (List.subset_append_right _ _))
          refine ⟨hrestTyped.1, ?_⟩
          rw [TypedUnder, actionsAll, List.forall_mem_append]
          exact ⟨hfirstTyped.2, hrestTyped.2⟩

end

theorem keptBy_isKeptIn (context : Context) (actions : List Action) :
    KeptBy context.IsKeptIn actions :=
  fun _ _ _ _ _ hkept hnone other found hother =>
    Context.extend_of_some hnone (hkept other found hother)

theorem WellTyped.isKeptIn {context after : Context} {statement : Stmt}
    (htyped : WellTyped context statement after) : context.IsKeptIn after :=
  (htyped.typedUnder (fun _ _ h => h) (keptBy_isKeptIn context statement.actions)).1

theorem AllWellTyped.isKeptIn {context after : Context} {statements : List Stmt}
    (htyped : AllWellTyped context statements after) : context.IsKeptIn after :=
  (htyped.typedUnder (fun _ _ h => h) (keptBy_isKeptIn context (actionsAll statements))).1

end Stmt

end WhileCompiler
