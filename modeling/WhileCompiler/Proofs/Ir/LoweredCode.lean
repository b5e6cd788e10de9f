import WhileCompiler.Proofs.Ir.FreshNames
import WhileCompiler.Proofs.Ir.Labels
import WhileCompiler.Proofs.Syntax.Variables

/-!
# The shape of lowered code

Code for an expression consists of calls that put their results into temporaries of their own.  Code
for a statement defines each of its labels once, jumps only to these, and draws all names anew, so
that stretches of code can be laid end to end.
-/

namespace WhileCompiler

open Ir

namespace Ir

/-- A call that puts its result into a temporary drawn between two states. -/
def IsComputation (earlier later : Names) (command : Command) : Prop :=
  ∃ temporary function arguments, command = .call temporary function arguments ∧
    IsTemporary temporary ∧ Names.Drawn earlier later temporary

theorem IsComputation.widen {earlier later outerEarlier outerLater : Names} {command : Command}
    (hcomputation : IsComputation earlier later command)
    (hearlier : outerEarlier.Before earlier) (hlater : later.Before outerLater) :
    IsComputation outerEarlier outerLater command := by
  obtain ⟨temporary, function, arguments, hcommand, htemporary, hdrawn⟩ := hcomputation
  exact ⟨temporary, function, arguments, hcommand, htemporary, hdrawn.widen hearlier hlater⟩

theorem labels_eq_nil_of_computations {earlier later : Names} {code : List Command}
    (hcode : ∀ command ∈ code, IsComputation earlier later command) : labels code = [] := by
  rw [labels, List.filterMap_eq_nil_iff]
  intro command hmem
  obtain ⟨temporary, function, arguments, rfl, -⟩ := hcode command hmem
  rfl

/-- Code that computes values draws its names as it goes. -/
structure Computes (earlier later : Names) (code : List Command) : Prop where
  before : earlier.Before later
  computation : ∀ command ∈ code, IsComputation earlier later command

theorem computes_nil (names : Names) : Computes names names [] :=
  ⟨.refl names, by simp⟩

theorem Computes.append {first second third : Names} {left right : List Command}
    (hleft : Computes first second left) (hright : Computes second third right) :
    Computes first third (left ++ right) := by
  refine ⟨hleft.before.trans hright.before, ?_⟩
  intro command hmem
  rcases List.mem_append.1 hmem with hmem | hmem
  · exact (hleft.computation command hmem).widen (.refl first) hright.before
  · exact (hright.computation command hmem).widen hleft.before (.refl third)

theorem Computes.call {earlier : Names} {arguments : Lowered (List Value)}
    (harguments : Computes earlier arguments.names arguments.code) (function : String) :
    Computes earlier (arguments.call function).names (arguments.call function).code := by
  have hfresh := arguments.names.before_fresh (temporaryStem function)
  refine harguments.append ⟨hfresh, ?_⟩
  intro command hmem
  rw [List.mem_singleton] at hmem
  exact ⟨_, function, arguments.result, hmem, isTemporary_fresh _ _,
    Names.drawn_fresh _ (isStem_temporaryStem function)⟩

end Ir

namespace Expr

theorem lower_unary (operator : String) (operand : Expr) (names : Names) :
    (unary operator operand).lower names =
      (lowerAll [operand] names).call (unaryName operator) := by
  simp only [lower, lowerAll, List.append_nil]

theorem lower_binary (operator : String) (left right : Expr) (names : Names) :
    (binary operator left right).lower names = (lowerAll [left, right] names).call operator := by
  simp only [lower, lowerAll, List.append_nil]

end Expr

mutual

theorem Expr.computes_lower (expression : Expr) (names : Names) :
    Computes names (expression.lower names).names (expression.lower names).code := by
  cases expression with
  | int value => exact computes_nil names
  | bool value => exact computes_nil names
  | var name => exact computes_nil names
  | unary operator operand => exact (operand.computes_lower names).call _
  | binary operator left right =>
      exact ((left.computes_lower names).append (right.computes_lower _)).call _
  | call function arguments => exact (Expr.computes_lowerAll arguments names).call _

theorem Expr.computes_lowerAll (expressions : List Expr) (names : Names) :
    Computes names (Expr.lowerAll expressions names).names
      (Expr.lowerAll expressions names).code := by
  cases expressions with
  | nil => exact computes_nil names
  | cons first rest => exact (first.computes_lower names).append (Expr.computes_lowerAll rest _)

end

namespace Ir

/-- Code whose labels were drawn between two states, each for one place. -/
structure Labelled (earlier later : Names) (code : List Command) : Prop where
  before : earlier.Before later
  drawn : ∀ name ∈ labels code, Names.Drawn earlier later name
  made : ∀ name ∈ labels code, IsLabelName name
  nodup : (labels code).Nodup

theorem labelled_nil (names : Names) : Labelled names names [] :=
  ⟨.refl names, by simp, by simp, .nil⟩

theorem Computes.labelled {earlier later : Names} {code : List Command}
    (hcode : Computes earlier later code) : Labelled earlier later code := by
  have hlabels := labels_eq_nil_of_computations hcode.computation
  exact ⟨hcode.before, by simp [hlabels], by simp [hlabels], by simp [hlabels]⟩

theorem Labelled.append {first second third : Names} {left right : List Command}
    (hleft : Labelled first second left) (hright : Labelled second third right) :
    Labelled first third (left ++ right) := by
  refine ⟨hleft.before.trans hright.before, ?_, ?_, ?_⟩
  · intro name hmem
    rcases List.mem_append.1 (labels_append left right ▸ hmem) with hmem | hmem
    · exact (hleft.drawn name hmem).widen (.refl first) hright.before
    · exact (hright.drawn name hmem).widen hleft.before (.refl third)
  · intro name hmem
    rcases List.mem_append.1 (labels_append left right ▸ hmem) with hmem | hmem
    · exact hleft.made name hmem
    · exact hright.made name hmem
  · rw [labels_append]
    exact Names.nodup_append_of_drawn hleft.drawn hright.drawn hleft.nodup hright.nodup

/-- Names that are drawn before the code begins do no harm. -/
theorem Labelled.widen {earlier later outer : Names} {code : List Command}
    (hcode : Labelled earlier later code) (hbefore : outer.Before earlier) :
    Labelled outer later code :=
  ⟨hbefore.trans hcode.before, fun name hmem => (hcode.drawn name hmem).widen hbefore (.refl later),
    hcode.made, hcode.nodup⟩

/-- A label that is drawn before the rest of the code, and stands anywhere in it. -/
theorem Labelled.insert {names later : Names} {stem : String} (hstem : stem ∈ labelStems)
    {inner code : List Command} (hinner : Labelled (names.fresh stem).2 later inner)
    (hlabels : (labels code).Perm ((names.fresh stem).1 :: labels inner)) :
    Labelled names later code := by
  have hfresh := names.before_fresh stem
  have hdrawn := Names.drawn_fresh names (isStem_of_mem_labelStems hstem)
  refine ⟨hfresh.trans hinner.before, ?_, ?_, ?_⟩
  · intro name hmem
    rcases List.mem_cons.1 (hlabels.mem_iff.1 hmem) with rfl | hmem
    · exact hdrawn.widen (.refl names) hinner.before
    · exact (hinner.drawn name hmem).widen hfresh (.refl later)
  · intro name hmem
    rcases List.mem_cons.1 (hlabels.mem_iff.1 hmem) with rfl | hmem
    · exact ⟨stem, hstem, _, rfl⟩
    · exact hinner.made name hmem
  · rw [hlabels.nodup_iff, List.nodup_cons]
    refine ⟨fun hmem => ?_, hinner.nodup⟩
    exact hdrawn.not_drawn (.refl _) (hinner.drawn _ hmem)

theorem Labelled.behindLabel (names : Names) {later : Names} {stem : String}
    (hstem : stem ∈ labelStems) {inner : List Command}
    (hinner : Labelled (names.fresh stem).2 later inner) :
    Labelled names later (.label (names.fresh stem).1 :: inner) :=
  hinner.insert hstem (.refl _)

theorem perm_two_labels (left right : List String) (first second : String) :
    (left ++ [first] ++ right ++ [second]).Perm (first :: second :: (left ++ right)) := by
  refine (List.perm_append_singleton second _).trans ?_
  refine .trans (.cons second ?_) (.swap first second _)
  rw [List.append_assoc]
  exact List.perm_middle

theorem Computes.jumpsTo {earlier later : Names} {code : List Command}
    (hcode : Computes earlier later code) (defined : List String) : JumpsTo defined code := by
  intro command hmem target htarget
  obtain ⟨temporary, function, arguments, rfl, -⟩ := hcode.computation command hmem
  cases htarget

end Ir

namespace Stmt

variable {condition : Expr} {thenBranch elseBranch : Stmt}

theorem lower_ifThen (hempty : elseBranch.isEmpty = true) (names : Names) :
    (conditional condition thenBranch elseBranch).lower names =
      let names := (names.fresh elseStem).2
      let (endLabel, names) := names.fresh endIfStem
      let condition := condition.lower names
      let thenBranch := thenBranch.lower condition.names
      ⟨condition.code ++ .jumpUnless endLabel condition.result :: thenBranch.code ++
          [.label endLabel], (), thenBranch.names⟩ := by
  simp only [lower, hempty, if_true]

theorem lower_ifThenElse (hempty : elseBranch.isEmpty = false) (names : Names) :
    (conditional condition thenBranch elseBranch).lower names =
      let (elseLabel, names) := names.fresh elseStem
      let (endLabel, names) := names.fresh endIfStem
      let condition := condition.lower names
      let thenBranch := thenBranch.lower condition.names
      let elseBranch := elseBranch.lower thenBranch.names
      ⟨condition.code ++ .jumpUnless elseLabel condition.result :: thenBranch.code ++
          [.jump endLabel, .label elseLabel] ++ elseBranch.code ++ [.label endLabel],
        (), elseBranch.names⟩ := by
  simp only [lower, hempty, Bool.false_eq_true, if_false]

end Stmt

mutual

theorem Stmt.labelled_lower (statement : Stmt) (names : Names) :
    Labelled names (statement.lower names).names (statement.lower names).code := by
  cases statement with
  | empty => exact labelled_nil names
  | block body => exact Stmt.labelled_lowerAll body names
  | declaration name type value =>
      have hvalue := (value.computes_lower names).labelled
      exact ⟨hvalue.before, by simpa [Stmt.lower] using hvalue.drawn,
        by simpa [Stmt.lower] using hvalue.made, by simpa [Stmt.lower] using hvalue.nodup⟩
  | assignment name value =>
      have hvalue := (value.computes_lower names).labelled
      exact ⟨hvalue.before, by simpa [Stmt.lower] using hvalue.drawn,
        by simpa [Stmt.lower] using hvalue.made, by simpa [Stmt.lower] using hvalue.nodup⟩
  | conditional condition thenBranch elseBranch =>
      have hparts (names : Names) := (condition.computes_lower names).labelled.append
        (thenBranch.labelled_lower (condition.lower names).names)
      cases hempty : elseBranch.isEmpty with
      | true =>
          rw [Stmt.lower_ifThen hempty]
          refine (Labelled.insert (by decide) (hparts _) ?_).widen (names.before_fresh elseStem)
          simp only [labels_append, labels_cons_jumpUnless, labels_cons_label, labels_nil]
          exact List.perm_append_singleton _ _
      | false =>
          rw [Stmt.lower_ifThenElse hempty]
          have hall (names : Names) := (hparts names).append (elseBranch.labelled_lower _)
          refine .insert (by decide) (.behindLabel _ (by decide) (hall _)) ?_
          simp only [labels_append, labels_cons_jumpUnless, labels_cons_jump, labels_cons_label,
            labels_nil]
          exact perm_two_labels _ _ _ _
  | loop condition body =>
      have hparts (names : Names) := (condition.computes_lower names).labelled.append
        (body.labelled_lower (condition.lower names).names)
      refine .insert (by decide) (.behindLabel _ (by decide) (hparts _)) ?_
      simp only [Stmt.lower, List.cons_append, labels_append, labels_cons_jumpUnless,
        labels_cons_jump, labels_cons_label, labels_nil]
      exact (List.perm_append_singleton _ _).cons _
  | expression value => exact (value.computes_lower names).labelled

theorem Stmt.labelled_lowerAll (statements : List Stmt) (names : Names) :
    Labelled names (Stmt.lowerAll statements names).names
      (Stmt.lowerAll statements names).code := by
  cases statements with
  | nil => exact labelled_nil names
  | cons first rest => exact (first.labelled_lower names).append (Stmt.labelled_lowerAll rest _)

end

/-! ## Where the code jumps -/

namespace Ir

theorem Computes.jumpsWithin {earlier later : Names} {code : List Command}
    (hcode : Computes earlier later code) : JumpsWithin code :=
  hcode.jumpsTo _

theorem jumpsWithin_stored {earlier later : Names} {code : List Command}
    (hcode : Computes earlier later code) (name : String) (value : Value) :
    JumpsWithin (code ++ [.copy name value]) :=
  hcode.jumpsWithin.append (jumpsTo_cons_copy.2 (jumpsTo_nil _))

end Ir

mutual

theorem Stmt.jumpsWithin_lower (statement : Stmt) (names : Names) :
    JumpsWithin (statement.lower names).code := by
  cases statement with
  | empty => exact (computes_nil names).jumpsWithin
  | block body => exact Stmt.jumpsWithin_lowerAll body names
  | declaration name type value => exact jumpsWithin_stored (value.computes_lower names) _ _
  | assignment name value => exact jumpsWithin_stored (value.computes_lower names) _ _
  | conditional condition thenBranch elseBranch =>
      have hcondition (names : Names) := (condition.computes_lower names).jumpsTo
      cases hempty : elseBranch.isEmpty with
      | true =>
          rw [Stmt.lower_ifThen hempty, JumpsWithin]
          simp only [labels_append, labels_cons_jumpUnless, labels_cons_label, labels_nil,
            jumpsTo_append, jumpsTo_cons_jumpUnless, jumpsTo_cons_label]
          refine ⟨⟨hcondition _ _, by simp, ?_⟩, jumpsTo_nil _⟩
          exact (Stmt.jumpsWithin_lower thenBranch _).mono fun _ hmem => by simp [hmem]
      | false =>
          rw [Stmt.lower_ifThenElse hempty, JumpsWithin]
          simp only [labels_append, labels_cons_jumpUnless, labels_cons_jump, labels_cons_label,
            labels_nil, jumpsTo_append, jumpsTo_cons_jumpUnless, jumpsTo_cons_jump,
            jumpsTo_cons_label]
          refine ⟨⟨⟨⟨hcondition _ _, by simp, ?_⟩, by simp, jumpsTo_nil _⟩, ?_⟩, jumpsTo_nil _⟩
          · exact (Stmt.jumpsWithin_lower thenBranch _).mono fun _ hmem => by simp [hmem]
          · exact (Stmt.jumpsWithin_lower elseBranch _).mono fun _ hmem => by simp [hmem]
  | loop condition body =>
      have hcondition (names : Names) := (condition.computes_lower names).jumpsTo
      rw [Stmt.lower, JumpsWithin]
      simp only [List.cons_append, labels_append, labels_cons_jumpUnless, labels_cons_jump,
        labels_cons_label, labels_nil, jumpsTo_append, jumpsTo_cons_jumpUnless, jumpsTo_cons_jump,
        jumpsTo_cons_label]
      refine ⟨⟨hcondition _ _, by simp, ?_⟩, by simp, jumpsTo_nil _⟩
      exact (Stmt.jumpsWithin_lower body _).mono fun _ hmem => by simp [hmem]
  | expression value => exact (value.computes_lower names).jumpsWithin

theorem Stmt.jumpsWithin_lowerAll (statements : List Stmt) (names : Names) :
    JumpsWithin (Stmt.lowerAll statements names).code := by
  cases statements with
  | nil => exact (computes_nil names).jumpsWithin
  | cons first rest =>
      exact (Stmt.jumpsWithin_lower first names).append (Stmt.jumpsWithin_lowerAll rest _)

end

end WhileCompiler
