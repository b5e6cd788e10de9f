import WhileCompiler.Proofs.CheckedPrograms
import WhileCompiler.Proofs.Ir.Temporaries
import WhileCompiler.Proofs.Ir.TypedRuns

/-!
# Lowered code is typed

The contexts of a well-typed program carry over to its code.  While an expression is computed, its
temporaries are added to the context, and behind the statement they are forgotten again: what a
program shows are its own variables and the built-in names.
-/

namespace WhileCompiler

open Ir

/-! ## The contexts of programs -/

/-- Programs name no temporaries, and functions only where these are built in. -/
structure Context.IsSource (builtins : Builtins) (context : Context) : Prop where
  plain : ∀ name, (context name).isSome → ¬ IsTemporary name
  functions : ∀ name parameters result, context name = some (.function parameters result) →
    builtins.signature? name = some (.function parameters result)

theorem isSource_signature? (builtins : Builtins) : Context.IsSource builtins builtins.signature? :=
  ⟨fun _ hname => Builtins.not_isTemporary_of_signature? hname, fun _ _ _ hname => hname⟩

theorem Stmt.keptBy_isSource {source : String} {program : Stmt}
    (hparse : Compiler.parse source = .ok program) (builtins : Builtins) :
    KeptBy (Context.IsSource builtins) program.actions := by
  intro context name type value hmem hsource hnone
  have hname : ¬ IsTemporary name := by
    apply not_isTemporary_of_parse hparse
    rw [vars_eq_flatMap]
    exact List.mem_flatMap.2 ⟨_, hmem, by simp [Action.vars, Action.target?]⟩
  constructor
  · intro other hother
    by_cases hsame : other = name
    · exact hsame ▸ hname
    · rw [Context.extend_of_ne hsame] at hother
      exact hsource.plain other hother
  · intro other parameters result hother
    by_cases hsame : other = name
    · rw [hsame, Context.extend, if_pos rfl] at hother
      have hvalue := (isSpelled_of_parse hparse).declaresValues name type value hmem
      rw [Option.some.inj hother] at hvalue
      exact hvalue.elim
    · rw [Context.extend_of_ne hsame] at hother
      exact hsource.functions other parameters result hother

/-! ## Expressions -/

/-- No temporary that is still to be drawn is visible. -/
def Context.Avoids (context : Context) (names : Names) : Prop :=
  ∀ name later, IsTemporary name → Names.Drawn names later name → context name = none

theorem Context.IsSource.avoids {builtins : Builtins} {context : Context}
    (hsource : context.IsSource builtins) (names : Names) : context.Avoids names := by
  intro name later htemporary _
  cases hname : context name with
  | none => rfl
  | some type => exact absurd htemporary (hsource.plain name (Option.isSome_of_eq_some hname))

namespace Ir

/-- Code that is entered where a context holds, and leaves behind a context in which its results are
typed. -/
def Leaves {α : Type} (builtins : Builtins) (current : Context) (lowered : Lowered α)
    (typed : Context → α → Prop) : Prop :=
  ∃ after, Flows builtins [] after current lowered.code ∧ current.IsKeptIn after ∧
    after.Avoids lowered.names ∧ typed after lowered.result

abbrev LeavesOne (builtins : Builtins) (current : Context) (lowered : Lowered Value) (type : Ty) :
    Prop :=
  Leaves builtins current lowered fun after value => value.HasType after type

abbrev LeavesAll (builtins : Builtins) (current : Context) (lowered : Lowered (List Value))
    (types : List Ty) : Prop :=
  Leaves builtins current lowered fun after values =>
    List.Forall₂ (Value.HasType after) values types

variable {builtins : Builtins} {current : Context}

/-- The result of a call is put into a temporary that was not visible before. -/
theorem LeavesAll.call {arguments : Lowered (List Value)} {parameters : List Ty}
    (harguments : LeavesAll builtins current arguments parameters) {function : String} {result : Ty}
    (hfunction : builtins.signature? function = some (.function parameters result)) :
    LeavesOne builtins current (arguments.call function) result := by
  obtain ⟨after, hflows, hkept, havoids, hresults⟩ := harguments
  have hdrawn := Names.drawn_fresh arguments.names (isStem_temporaryStem function)
  have hfresh := arguments.names.before_fresh (temporaryStem function)
  have hnone := havoids _ _ (isTemporary_fresh arguments.names function) hdrawn
  refine ⟨after.extend _ result, hflows.append (.call hfunction hresults (.nil (.refl _))),
    hkept.trans (Context.isKeptIn_extend hnone result), ?_, .var (if_pos rfl)⟩
  intro name later htemporary hlater
  rw [Context.extend_of_ne]
  · exact havoids name later htemporary (hlater.widen hfresh (.refl later))
  · rintro rfl
    exact hdrawn.not_drawn (.refl _) hlater

end Ir

namespace Expr

variable {builtins : Builtins} {context current : Context}

theorem leavesAll_nil {names : Names} (havoids : current.Avoids names) :
    LeavesAll builtins current (lowerAll [] names) [] :=
  ⟨current, .nil (.refl _), .refl _, havoids, .nil⟩

theorem leavesAll_cons {first : Expr} {rest : List Expr} {type : Ty} {types : List Ty}
    {names : Names} (hfirst : LeavesOne builtins current (first.lower names) type)
    (hrest : ∀ between, current.IsKeptIn between → between.Avoids (first.lower names).names →
      LeavesAll builtins between (lowerAll rest (first.lower names).names) types) :
    LeavesAll builtins current (lowerAll (first :: rest) names) (type :: types) := by
  obtain ⟨between, hflows, hkept, havoids, hresult⟩ := hfirst
  obtain ⟨after, hflowsRest, hkeptRest, havoidsRest, hresults⟩ := hrest between hkept havoids
  exact ⟨after, hflows.append hflowsRest, hkept.trans hkeptRest, havoidsRest,
    .cons (hresult.mono hkeptRest) hresults⟩

mutual

theorem HasType.leaves {expression : Expr} {type : Ty} (htyped : expression.HasType context type)
    (hsource : context.IsSource builtins) {current : Context} {names : Names}
    (hkept : context.IsKeptIn current) (havoids : current.Avoids names) :
    LeavesOne builtins current (expression.lower names) type := by
  cases expression with
  | int value =>
      cases htyped
      exact ⟨current, .nil (.refl _), .refl _, havoids, .int⟩
  | bool value =>
      cases htyped
      exact ⟨current, .nil (.refl _), .refl _, havoids, .bool⟩
  | var name =>
      cases htyped with
      | var hname => exact ⟨current, .nil (.refl _), .refl _, havoids, .var (hkept _ _ hname)⟩
  | unary operator operand =>
      cases htyped with
      | unary hoperand hfunction =>
          rw [lower_unary]
          refine (leavesAll_cons (hoperand.leaves hsource hkept havoids) ?_).call
            (hsource.functions _ _ _ hfunction)
          exact fun _ _ => leavesAll_nil
  | binary operator left right =>
      cases htyped with
      | binary hleft hright hfunction =>
          rw [lower_binary]
          refine (leavesAll_cons (hleft.leaves hsource hkept havoids) ?_).call
            (hsource.functions _ _ _ hfunction)
          intro between hbetween havoids
          refine leavesAll_cons (hright.leaves hsource (hkept.trans hbetween) havoids) ?_
          exact fun _ _ => leavesAll_nil
  | call function arguments =>
      cases htyped with
      | call harguments hfunction =>
          exact (harguments.leaves hsource hkept havoids).call (hsource.functions _ _ _ hfunction)

theorem HaveTypes.leaves {expressions : List Expr} {types : List Ty}
    (htyped : HaveTypes context expressions types) (hsource : context.IsSource builtins)
    {current : Context} {names : Names} (hkept : context.IsKeptIn current)
    (havoids : current.Avoids names) :
    LeavesAll builtins current (lowerAll expressions names) types := by
  cases expressions with
  | nil =>
      cases htyped
      exact leavesAll_nil havoids
  | cons first rest =>
      cases htyped with
      | cons hfirst hrest =>
          refine leavesAll_cons (hfirst.leaves hsource hkept havoids) ?_
          intro between hbetween havoids
          exact hrest.leaves hsource (hkept.trans hbetween) havoids

end

end Expr

/-! ## Statements -/

namespace Ir

/-- Code whose labels can be given contexts so that it leads from one context to another one. -/
def IsFlow (builtins : Builtins) (context after : Context) (code : List Command) : Prop :=
  ∃ labels : LabelContexts, labels.map Prod.fst = Ir.labels code ∧
    Flows builtins labels after context code

variable {builtins : Builtins} {context between after : Context} {left right : List Command}

theorem isFlow_nil (context : Context) : IsFlow builtins context context [] :=
  ⟨[], rfl, .nil (.refl _)⟩

theorem IsFlow.append (hleft : IsFlow builtins context between left)
    (hright : IsFlow builtins between after right) :
    IsFlow builtins context after (left ++ right) := by
  obtain ⟨labels, hnames, hflows⟩ := hleft
  obtain ⟨more, hmore, hflowsRight⟩ := hright
  refine ⟨labels ++ more, by rw [List.map_append, hnames, hmore, labels_append], ?_⟩
  exact (hflows.mono (List.subset_append_left _ _)).append
    (hflowsRight.mono (List.subset_append_right _ _))

theorem IsFlow.forget {less : Context} (hcode : IsFlow builtins context after left)
    (hkept : less.IsKeptIn after) : IsFlow builtins context less left := by
  obtain ⟨labels, hnames, hflows⟩ := hcode
  exact ⟨labels, hnames, hflows.forget hkept⟩

end Ir

namespace Stmt

variable {builtins : Builtins} {condition : Expr} {thenBranch elseBranch body : Stmt}

/-- An expression leaves a typed value behind, wherever a program is typed. -/
theorem leavesOne_lower {context : Context} {value : Expr} {type : Ty}
    (htyped : value.HasType context type) (hsource : context.IsSource builtins) (names : Names) :
    LeavesOne builtins context (value.lower names) type :=
  htyped.leaves hsource (.refl context) (hsource.avoids names)

theorem labels_lower (value : Expr) (names : Names) : Ir.labels (value.lower names).code = [] :=
  labels_eq_nil_of_computations (value.computes_lower names).computation

/-- The result of an expression is copied to a variable that keeps its type. -/
theorem isFlow_stored {context : Context} {name : String} {value : Expr} {type : Ty}
    (hvalue : value.HasType context type) (hsource : context.IsSource builtins) (names : Names) :
    IsFlow builtins context (context.extend name type)
      ((value.lower names).code ++ [.copy name (value.lower names).result]) := by
  obtain ⟨after, hflows, hkept, -, hresult⟩ := leavesOne_lower hvalue hsource names
  refine ⟨[], ?_, hflows.append (.copy hresult (.nil (hkept.extend name type)))⟩
  rw [labels_append, labels_lower]
  rfl

theorem isFlow_ifThen {context inner : Context} (hempty : elseBranch.isEmpty = true)
    (hcondition : condition.HasType context .bool) (hsource : context.IsSource builtins)
    (hthen : ∀ names, IsFlow builtins context inner (thenBranch.lower names).code)
    (hinner : context.IsKeptIn inner) (names : Names) :
    IsFlow builtins context context
      ((conditional condition thenBranch elseBranch).lower names).code := by
  rw [lower_ifThen hempty]
  dsimp only
  generalize (names.fresh elseStem).2.fresh endIfStem = drawn
  obtain ⟨endLabel, names⟩ := drawn
  obtain ⟨between, htest, hbetween, -, hresult⟩ := leavesOne_lower hcondition hsource names
  obtain ⟨labels, hnames, hthen⟩ := hthen (condition.lower names).names
  have hbranch := (hthen.mono (List.subset_append_left labels [(endLabel, context)])).strengthen
    hbetween
  have hend : (endLabel, context) ∈ labels ++ [(endLabel, context)] := by simp
  refine ⟨labels ++ [(endLabel, context)], ?_, ?_⟩
  · simp only [List.map_append, List.map_cons, List.map_nil, hnames, labels_append, labels_lower,
      labels_cons_jumpUnless, labels_cons_label, labels_nil, List.nil_append]
  · have hentry := (htest.mono (List.nil_subset _)).append
      (.jumpUnless hresult hend hbetween hbranch)
    exact hentry.append (.label hend hinner (.nil (.refl context)))

theorem isFlow_ifThenElse {context thenContext elseContext : Context}
    (hempty : elseBranch.isEmpty = false) (hcondition : condition.HasType context .bool)
    (hsource : context.IsSource builtins)
    (hthen : ∀ names, IsFlow builtins context thenContext (thenBranch.lower names).code)
    (hthenKept : context.IsKeptIn thenContext)
    (helse : ∀ names, IsFlow builtins context elseContext (elseBranch.lower names).code)
    (helseKept : context.IsKeptIn elseContext) (names : Names) :
    IsFlow builtins context context
      ((conditional condition thenBranch elseBranch).lower names).code := by
  rw [lower_ifThenElse hempty]
  generalize names.fresh elseStem = drawn
  obtain ⟨elseLabel, names⟩ := drawn
  dsimp only
  generalize names.fresh endIfStem = drawn
  obtain ⟨endLabel, names⟩ := drawn
  obtain ⟨between, htest, hbetween, -, hresult⟩ := leavesOne_lower hcondition hsource names
  obtain ⟨labels, hnames, hthen⟩ := hthen (condition.lower names).names
  obtain ⟨more, hmore, helse⟩ := helse (thenBranch.lower (condition.lower names).names).names
  -- Both labels stand where the context of the whole statement holds again.
  let all : LabelContexts := labels ++ (elseLabel, context) :: more ++ [(endLabel, context)]
  have hthenBranch : Flows builtins all thenContext between _ :=
    (hthen.mono fun _ hmem => by simp [all, hmem]).strengthen hbetween
  have helseBranch : Flows builtins all elseContext context _ :=
    helse.mono fun _ hmem => by simp [all, hmem]
  have helseLabel : (elseLabel, context) ∈ all := by simp [all]
  have hendLabel : (endLabel, context) ∈ all := by simp [all]
  refine ⟨all, ?_, ?_⟩
  · simp only [all, List.map_append, List.map_cons, List.map_nil, hnames, hmore, labels_append,
      labels_lower, labels_cons_jumpUnless, labels_cons_jump, labels_cons_label, labels_nil,
      List.nil_append, List.append_assoc, List.cons_append]
  · have hbefore := (htest.mono (List.nil_subset all)).append
      (.jumpUnless hresult helseLabel hbetween hthenBranch)
    have hmiddle : Flows builtins all context thenContext [.jump endLabel, .label elseLabel] :=
      .jump hendLabel hthenKept (.label helseLabel (.refl context) (.nil (.refl context)))
    exact ((hbefore.append hmiddle).append helseBranch).append
      (.label hendLabel helseKept (.nil (.refl context)))

theorem isFlow_loop {context inner : Context} (hcondition : condition.HasType context .bool)
    (hsource : context.IsSource builtins)
    (hbody : ∀ names, IsFlow builtins context inner (body.lower names).code)
    (hinner : context.IsKeptIn inner) (names : Names) :
    IsFlow builtins context context ((loop condition body).lower names).code := by
  rw [lower]
  generalize names.fresh loopHeadStem = drawn
  obtain ⟨headLabel, names⟩ := drawn
  dsimp only
  generalize names.fresh loopEndStem = drawn
  obtain ⟨endLabel, names⟩ := drawn
  obtain ⟨between, htest, hbetween, -, hresult⟩ := leavesOne_lower hcondition hsource names
  obtain ⟨labels, hnames, hbody⟩ := hbody (condition.lower names).names
  let all : LabelContexts := (headLabel, context) :: labels ++ [(endLabel, context)]
  have hround : Flows builtins all inner between _ :=
    (hbody.mono fun _ hmem => by simp [all, hmem]).strengthen hbetween
  have hhead : (headLabel, context) ∈ all := by simp [all]
  have hend : (endLabel, context) ∈ all := by simp [all]
  refine ⟨all, ?_, ?_⟩
  · simp only [all, List.map_append, List.map_cons, List.map_nil, hnames, labels_append,
      labels_lower, labels_cons_jumpUnless, labels_cons_jump, labels_cons_label, labels_nil,
      List.nil_append, List.cons_append]
  · have htested : Flows builtins all between context (.label headLabel :: _) :=
      .label hhead (.refl context) (htest.mono (List.nil_subset all))
    exact (htested.append (.jumpUnless hresult hend hbetween hround)).append
      (.jump hhead hinner (.label hend (.refl context) (.nil (.refl context))))

mutual

/-- The code of a well-typed statement leads from its first context to its last one. -/
theorem WellTyped.isFlow {context after : Context} {statement : Stmt}
    (htyped : WellTyped context statement after) (hsource : context.IsSource builtins)
    (hkept : KeptBy (Context.IsSource builtins) statement.actions) (names : Names) :
    IsFlow builtins context after (statement.lower names).code := by
  cases statement with
  | empty =>
      cases htyped
      exact isFlow_nil context
  | block body =>
      cases htyped with
      | block hbody => exact (hbody.isFlow hsource hkept names).forget hbody.isKeptIn
  | declaration name type value =>
      cases htyped with
      | declaration _ hvalue => exact isFlow_stored hvalue hsource names
  | assignment name value =>
      cases htyped with
      | assignment hname hvalue =>
          exact (isFlow_stored hvalue hsource names).forget (Context.isKeptIn_extend_self hname)
  | conditional condition thenBranch elseBranch =>
      cases htyped with
      | conditional hcondition hthen helse =>
          have hthenFlow (names : Names) := hthen.isFlow hsource (hkept.mono fun action hmem =>
            List.mem_cons_of_mem _ (List.mem_append_left _ hmem)) names
          have helseFlow (names : Names) := helse.isFlow hsource (hkept.mono fun action hmem =>
            List.mem_cons_of_mem _ (List.mem_append_right _ hmem)) names
          cases hempty : elseBranch.isEmpty with
          | true => exact isFlow_ifThen hempty hcondition hsource hthenFlow hthen.isKeptIn names
          | false =>
              exact isFlow_ifThenElse hempty hcondition hsource hthenFlow hthen.isKeptIn helseFlow
                helse.isKeptIn names
  | loop condition body =>
      cases htyped with
      | loop hcondition hbody =>
          have hbodyFlow (names : Names) :=
            hbody.isFlow hsource (hkept.mono (List.subset_cons_self _ _)) names
          exact isFlow_loop hcondition hsource hbodyFlow hbody.isKeptIn names
  | expression value =>
      cases htyped with
      | expression hvalue =>
          obtain ⟨between, hflows, hbetween, -⟩ := leavesOne_lower hvalue hsource names
          exact ⟨[], (labels_lower value names).symm, hflows.forget hbetween⟩

theorem AllWellTyped.isFlow {context after : Context} {statements : List Stmt}
    (htyped : AllWellTyped context statements after) (hsource : context.IsSource builtins)
    (hkept : KeptBy (Context.IsSource builtins) (actionsAll statements)) (names : Names) :
    IsFlow builtins context after (lowerAll statements names).code := by
  cases statements with
  | nil =>
      cases htyped
      exact isFlow_nil context
  | cons first rest =>
      cases htyped with
      | cons hfirst hrest =>
          have hfirstKept := hkept.mono (List.subset_append_left _ _)
          have hbetween := (hfirst.typedUnder hsource hfirstKept).1
          exact (hfirst.isFlow hsource hfirstKept names).append
            (hrest.isFlow hbetween (hkept.mono (List.subset_append_right _ _)) _)

end

/-- The code of a program that is accepted is typed. -/
theorem exists_isTyped {source : String} {program : Stmt}
    (hparse : Compiler.parse source = .ok program)
    (hcheck : program.checkProgram builtins = .ok ()) :
    ∃ labels after, IsTyped builtins labels after program.toIr := by
  obtain ⟨after, htyped⟩ := wellTyped_of_checkProgram hcheck
  obtain ⟨labels, hnames, hflows⟩ :=
    htyped.isFlow (isSource_signature? builtins) (keptBy_isSource hparse builtins) .initial
  exact ⟨labels, after, hnames, (program.labelled_lower .initial).nodup, hflows⟩

end Stmt

end WhileCompiler
