import WhileCompiler.Proofs.Results
import WhileCompiler.Proofs.Syntax.FunctionNames
import WhileCompiler.Proofs.Typing.Checking

/-!
# Checking renamed programs

Types do not depend on what names are called.  When the variables of a program are renamed, and the
names that are visible along with them, the checker comes to the same verdict, and an error is the
same but for the names in it.
-/

namespace WhileCompiler

/-- The error about renamed variables. -/
def TypeError.rename (f : String → String) : TypeError → TypeError
  | alreadyDeclared name => alreadyDeclared (f name)
  | badInitialValue name found => badInitialValue (f name) found
  | undeclaredTarget name => undeclaredTarget (f name)
  | badAssignment name expected found => badAssignment (f name) expected found
  | badIfCondition found => badIfCondition found
  | badLoopCondition found => badLoopCondition found
  | unknownVariable name => unknownVariable (f name)
  | notCallable name => notCallable (f name)
  | wrongCount name expected given => wrongCount (f name) expected given
  | badArgument name number expected found => badArgument (f name) number expected found

theorem TypeError.rename_id (error : TypeError) : error.rename id = error := by
  cases error <;> rfl

/-- Scopes in which the names mean under a renaming what they mean in other ones. -/
def Scopes.Renamed (f : String → String) (names : Set String) (scopes renamed : Scopes Ty) : Prop :=
  ∀ name ∈ names, renamed.lookup? (f name) = scopes.lookup? name

variable {f : String → String} {names : Set String} {scopes renamed : Scopes Ty}

theorem Scopes.Renamed.push (hscopes : scopes.Renamed f names renamed) :
    scopes.push.Renamed f names renamed.push :=
  hscopes

theorem Scopes.Renamed.declare (hscopes : Renamed f names scopes renamed)
    (hinjective : Set.InjOn f names) {name : String} (hname : name ∈ names) (type : Ty) :
    Renamed f names (scopes.declare name type) (renamed.declare (f name) type) := by
  intro other hother
  have hsame : f other = f name ↔ other = name :=
    ⟨fun heq => hinjective hother hname heq, congrArg f⟩
  simp only [Scopes.lookup?_declare, hsame, hscopes other hother]

/-! ## Expressions -/

theorem firstMisfit_rename (f : String → String) (name : String) (number : Nat)
    (parameters given : List Ty) :
    firstMisfit (f name) number parameters given =
      (firstMisfit name number parameters given).map (TypeError.rename f) := by
  induction parameters generalizing number given with
  | nil => rfl
  | cons expected parameters ih =>
      cases given with
      | nil => rfl
      | cons found given =>
          rw [firstMisfit, firstMisfit]
          split
          · exact ih (number + 1) given
          · rfl

theorem callType_rename (hscopes : scopes.Renamed f names renamed) {name : String}
    (hname : name ∈ names) (given : List Ty) :
    callType renamed (f name) given =
      (callType scopes name given).mapError (TypeError.rename f) := by
  rw [callType, callType, hscopes name hname]
  split
  · split
    · rw [firstMisfit_rename]
      cases firstMisfit name 1 _ given with
      | none => rfl
      | some error => rfl
    · rfl
  · rfl

/-- A function that keeps its name is called as before. -/
theorem callType_kept (hscopes : scopes.Renamed f names renamed) {name : String}
    (hname : name ∈ names ∧ f name = name) (given : List Ty) :
    callType renamed name given = (callType scopes name given).mapError (TypeError.rename f) := by
  have hcall := callType_rename hscopes hname.1 given
  rwa [hname.2] at hcall

namespace Expr

mutual

theorem typeOf_rename (hscopes : scopes.Renamed f names renamed) (expression : Expr)
    (hnames : Renames f names expression.vars expression.functions) :
    (expression.rename f).typeOf renamed =
      (expression.typeOf scopes).mapError (TypeError.rename f) := by
  cases expression with
  | int value => rfl
  | bool value => rfl
  | var name =>
      have hname : name ∈ names := hnames.vars name (List.mem_singleton_self name)
      rw [rename, typeOf, typeOf, hscopes name hname]
      cases scopes.lookup? name with
      | none => rfl
      | some type => rfl
  | unary operator operand =>
      obtain ⟨hoperator, hoperand⟩ := renames_cons_function.1 hnames
      rw [rename, typeOf, typeOf, typeOf_rename hscopes operand hoperand]
      cases operand.typeOf scopes with
      | error error => rfl
      | ok type => exact callType_kept hscopes hoperator [type]
  | binary operator left right =>
      obtain ⟨hoperator, hoperands⟩ := renames_cons_function.1 hnames
      obtain ⟨hleft, hright⟩ := renames_append.1 hoperands
      rw [rename, typeOf, typeOf, typeOf_rename hscopes left hleft,
        typeOf_rename hscopes right hright]
      cases left.typeOf scopes with
      | error error => rfl
      | ok leftType =>
          cases right.typeOf scopes with
          | error error => rfl
          | ok rightType => exact callType_kept hscopes hoperator [leftType, rightType]
  | call function arguments =>
      obtain ⟨hfunction, harguments⟩ := renames_cons_function.1 hnames
      rw [rename, typeOf, typeOf, typesOf_rename hscopes arguments harguments]
      cases typesOf scopes arguments with
      | error error => rfl
      | ok types => exact callType_rename hscopes hfunction.1 types

theorem typesOf_rename (hscopes : scopes.Renamed f names renamed) (expressions : List Expr)
    (hnames : Renames f names (varsAll expressions) (functionsAll expressions)) :
    typesOf renamed (renameAll f expressions) =
      (typesOf scopes expressions).mapError (TypeError.rename f) := by
  cases expressions with
  | nil => rfl
  | cons first rest =>
      obtain ⟨hfirst, hrest⟩ := renames_append.1 hnames
      rw [renameAll, typesOf, typesOf, typeOf_rename hscopes first hfirst,
        typesOf_rename hscopes rest hrest]
      cases first.typeOf scopes with
      | error error => rfl
      | ok type =>
          cases typesOf scopes rest with
          | error error => rfl
          | ok types => rfl

end

end Expr

/-! ## Statements -/

namespace Stmt

/-- Checks with the same outcome up to names.  When they succeed, the names mean the same. -/
structure SameCheck (f : String → String) (names : Set String) (checked renamed : Checked) :
    Prop where
  outcome : renamed.1 = checked.1.mapError (TypeError.rename f)
  scopes : checked.1 = .ok () → checked.2.Renamed f names renamed.2

theorem SameCheck.failed {error : TypeError} :
    SameCheck f names (.error error, scopes) (.error (error.rename f), renamed) :=
  ⟨rfl, nofun⟩

/-- A frame of its own is left behind in both checks. -/
theorem SameCheck.inFrame {statement renamedStatement : Stmt}
    (hcheck : SameCheck f names (statement.check scopes.push) (renamedStatement.check renamed.push))
    (hscopes : scopes.Renamed f names renamed) :
    SameCheck f names (Stmt.inFrame statement.check scopes)
      (Stmt.inFrame renamedStatement.check renamed) := by
  rw [inFrame_check, inFrame_check]
  exact ⟨hcheck.outcome, fun _ => hscopes⟩

theorem SameCheck.inFrameAll {statements renamedStatements : List Stmt}
    (hcheck : SameCheck f names (checkAll statements scopes.push)
      (checkAll renamedStatements renamed.push))
    (hscopes : scopes.Renamed f names renamed) :
    SameCheck f names (Stmt.inFrame (checkAll statements) scopes)
      (Stmt.inFrame (checkAll renamedStatements) renamed) := by
  rw [inFrame_checkAll, inFrame_checkAll]
  exact ⟨hcheck.outcome, fun _ => hscopes⟩

/-- Goes on with the scopes that a check leaves, unless it is rejected. -/
def Checked.andThen (first : Checked) (next : Scopes Ty → Checked) : Checked :=
  match first with
  | (.error error, scopes) => (.error error, scopes)
  | (.ok (), scopes) => next scopes

theorem SameCheck.andThen {first first' : Checked} {next next' : Scopes Ty → Checked}
    (hfirst : SameCheck f names first first')
    (hnext : ∀ scopes renamed, scopes.Renamed f names renamed →
      SameCheck f names (next scopes) (next' renamed)) :
    SameCheck f names (first.andThen next) (first'.andThen next') := by
  obtain ⟨outcome, after⟩ := first
  obtain ⟨outcome', after'⟩ := first'
  obtain rfl : outcome' = outcome.mapError (TypeError.rename f) := hfirst.outcome
  cases outcome with
  | error error => exact .failed
  | ok value => exact hnext after after' (hfirst.scopes rfl)

-- The scopes behind a statement matter as well, for the statements that follow it; they are related
-- where the check succeeds, since a fault ends the whole check.
mutual

/-- The check of a renamed statement gives the same verdict, errors renamed. -/
theorem sameCheck_rename (hinjective : Set.InjOn f names) (statement : Stmt)
    (hnames : RenamesAll f names statement.actions) {scopes renamed : Scopes Ty}
    (hscopes : scopes.Renamed f names renamed) :
    SameCheck f names (statement.check scopes) ((statement.rename f).check renamed) := by
  cases statement with
  | empty => exact ⟨rfl, fun _ => hscopes⟩
  | block body =>
      exact (sameCheckAll_rename hinjective body hnames hscopes.push).inFrameAll hscopes
  | declaration name type initial =>
      obtain ⟨hname, hinitial⟩ := renames_cons_var.1 (hnames _ (List.mem_singleton_self _))
      have hbound : renamed.isBound (f name) = scopes.isBound name :=
        congrArg Option.isSome (hscopes name hname)
      rw [rename, check, check, hbound, Expr.typeOf_rename hscopes initial hinitial]
      split
      · exact .failed
      · cases initial.typeOf scopes with
        | error error => exact .failed
        | ok found =>
            change SameCheck f names (if _ then _ else _) (if _ then _ else _)
            split
            · exact ⟨rfl, fun _ => hscopes.declare hinjective hname type⟩
            · exact .failed
  | assignment name value =>
      obtain ⟨hname, hvalue⟩ := renames_cons_var.1 (hnames _ (List.mem_singleton_self _))
      rw [rename, check, check, hscopes name hname, Expr.typeOf_rename hscopes value hvalue]
      cases scopes.lookup? name with
      | none => exact .failed
      | some expected =>
          cases value.typeOf scopes with
          | error error => exact .failed
          | ok found =>
              change SameCheck f names (if _ then _ else _) (if _ then _ else _)
              split
              · exact ⟨rfl, fun _ => hscopes⟩
              · exact .failed
  | conditional condition thenBranch elseBranch =>
      obtain ⟨hcondition, hbranches⟩ := List.forall_mem_cons.1 hnames
      obtain ⟨hthen, helse⟩ := List.forall_mem_append.1 hbranches
      rw [rename, check, check, Expr.typeOf_rename hscopes condition hcondition]
      cases condition.typeOf scopes with
      | error error => exact .failed
      | ok found =>
          cases found with
          | bool =>
              have hthenCheck := sameCheck_rename hinjective thenBranch hthen hscopes.push
              refine (hthenCheck.inFrame hscopes).andThen fun between renamedBetween hbetween => ?_
              have helseCheck := sameCheck_rename hinjective elseBranch helse hbetween.push
              exact helseCheck.inFrame hbetween
          | int | void | function parameters result => exact .failed
  | loop condition body =>
      obtain ⟨hcondition, hbody⟩ := List.forall_mem_cons.1 hnames
      rw [rename, check, check, Expr.typeOf_rename hscopes condition hcondition]
      cases condition.typeOf scopes with
      | error error => exact .failed
      | ok found =>
          cases found with
          | bool =>
              have hbodyCheck := sameCheck_rename hinjective body hbody hscopes.push
              exact hbodyCheck.inFrame hscopes
          | int | void | function parameters result => exact .failed
  | expression value =>
      rw [rename, check, check,
        Expr.typeOf_rename hscopes value (hnames _ (List.mem_singleton_self _))]
      cases value.typeOf scopes with
      | error error => exact .failed
      | ok found => exact ⟨rfl, fun _ => hscopes⟩

theorem sameCheckAll_rename (hinjective : Set.InjOn f names) (statements : List Stmt)
    (hnames : RenamesAll f names (actionsAll statements)) {scopes renamed : Scopes Ty}
    (hscopes : scopes.Renamed f names renamed) :
    SameCheck f names (checkAll statements scopes) (checkAll (renameAll f statements) renamed) := by
  cases statements with
  | nil => exact ⟨rfl, fun _ => hscopes⟩
  | cons first rest =>
      obtain ⟨hfirst, hrest⟩ := List.forall_mem_append.1 hnames
      rw [renameAll, checkAll, checkAll]
      exact (sameCheck_rename hinjective first hfirst hscopes).andThen fun _ _ hafter =>
        sameCheckAll_rename hinjective rest hrest hafter

end

/-- A renaming carries the verdict on a program over, provided that it keeps names apart and that
built-in names mean what the names they take the place of have meant. -/
theorem checkProgram_rename (hinjective : Set.InjOn f names) {program : Stmt}
    (hnames : RenamesAll f names program.actions) {builtins others : Builtins}
    (hbuiltins : ∀ name ∈ names, others.signature? (f name) = builtins.signature? name) :
    (program.rename f).checkProgram others =
      (program.checkProgram builtins).mapError (TypeError.rename f) := by
  have hscopes : Scopes.Renamed f names (.ofRoot builtins.signatures)
      (.ofRoot others.signatures) := by
    intro name hname
    rw [lookup?_ofRoot_signatures, lookup?_ofRoot_signatures, hbuiltins name hname]
  exact (sameCheck_rename hinjective program hnames hscopes).outcome

end Stmt

end WhileCompiler
