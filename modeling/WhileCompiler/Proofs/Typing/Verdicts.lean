import WhileCompiler.Typing.Checker

/-!
# Verdicts on statements

What the check of a statement comes to is told here once, from the types of its expressions and the
verdicts on the statements inside it.  These are checked in frames of their own, which are left again
whatever the outcome, so that only a declaration changes the scopes.
-/

namespace WhileCompiler

theorem Ty.ne_of_not_fits {found expected : Ty} (hfits : ¬ found.fits expected = true) :
    found ≠ expected :=
  fun heq => hfits (decide_eq_true heq)

namespace Scopes

variable {α : Type}

theorem frames_tail_declare (scopes : Scopes α) (name : String) (value : α) :
    (scopes.declare name value).frames.tail = scopes.frames.tail := by
  cases hentered : scopes.entered with
  | nil => simp [declare, frames, hentered]
  | cons top others => simp [declare, frames, hentered]

/-- Leaving the innermost frame brings back what is below it. -/
theorem pop_of_frames_tail {scopes inner : Scopes α} (htail : inner.frames.tail = scopes.frames) :
    inner.pop = scopes := by
  obtain ⟨entered, root⟩ := inner
  cases entered with
  | nil => simp [frames] at htail
  | cons top others =>
      have hframes : others ++ [root] = scopes.entered ++ [scopes.root] := htail
      obtain ⟨rfl, hroot⟩ := List.append_inj' hframes rfl
      rw [List.singleton_inj.1 hroot]
      rfl

end Scopes

namespace Stmt

/-- A frame of its own is left again, if nothing is written around it. -/
theorem inFrame_eq_of_frames_tail {check : Scopes Ty → Checked} {scopes : Scopes Ty}
    (hkept : (check scopes.push).2.frames.tail = scopes.push.frames.tail) :
    inFrame check scopes = ((check scopes.push).1, scopes) :=
  Prod.ext rfl (Scopes.pop_of_frames_tail hkept)

/-- The expression that a statement evaluates itself. -/
def value? : Stmt → Option Expr
  | .empty | .block _ => none
  | .declaration _ _ value | .assignment _ value | .conditional value _ _ | .loop value _
  | .expression value => some value

/-- What the check of a statement comes to, from the verdicts on its parts. -/
inductive Verdict (scopes : Scopes Ty) : Stmt → Checked → Prop
  | empty : Verdict scopes .empty (.ok (), scopes)
  | block {body : List Stmt} {outcome : Except TypeError Unit} :
      (checkAll body scopes.push).1 = outcome → Verdict scopes (.block body) (outcome, scopes)
  | declared {name : String} {type : Ty} {initial : Expr} :
      scopes.lookup? name = none → initial.typeOf scopes = .ok type →
      Verdict scopes (.declaration name type initial) (.ok (), scopes.declare name type)
  | assigned {name : String} {type : Ty} {value : Expr} :
      scopes.lookup? name = some type → value.typeOf scopes = .ok type →
      Verdict scopes (.assignment name value) (.ok (), scopes)
  | conditional {condition : Expr} {thenBranch elseBranch : Stmt}
      {outcome : Except TypeError Unit} :
      condition.typeOf scopes = .ok .bool → (thenBranch.check scopes.push).1 = .ok () →
      (elseBranch.check scopes.push).1 = outcome →
      Verdict scopes (.conditional condition thenBranch elseBranch) (outcome, scopes)
  | loop {condition : Expr} {body : Stmt} {outcome : Except TypeError Unit} :
      condition.typeOf scopes = .ok .bool → (body.check scopes.push).1 = outcome →
      Verdict scopes (.loop condition body) (outcome, scopes)
  | expression {value : Expr} {type : Ty} :
      value.typeOf scopes = .ok type → Verdict scopes (.expression value) (.ok (), scopes)
  /-- The statement evaluates an expression that has no type. -/
  | untyped {statement : Stmt} {value : Expr} {error : TypeError} :
      statement.value? = some value → value.typeOf scopes = .error error →
      Verdict scopes statement (.error error, scopes)
  | redeclared {name : String} {type : Ty} {initial : Expr} :
      scopes.isBound name = true →
      Verdict scopes (.declaration name type initial) (.error (.alreadyDeclared name), scopes)
  | badInitialValue {name : String} {type found : Ty} {initial : Expr} :
      initial.typeOf scopes = .ok found → found ≠ type →
      Verdict scopes (.declaration name type initial) (.error (.badInitialValue name found), scopes)
  | undeclared {name : String} {value : Expr} :
      scopes.lookup? name = none →
      Verdict scopes (.assignment name value) (.error (.undeclaredTarget name), scopes)
  | badAssignment {name : String} {expected found : Ty} {value : Expr} :
      scopes.lookup? name = some expected → value.typeOf scopes = .ok found → found ≠ expected →
      Verdict scopes (.assignment name value) (.error (.badAssignment name expected found), scopes)
  /-- The branch behind one that is rejected is not checked. -/
  | badBranch {condition : Expr} {thenBranch elseBranch : Stmt} {error : TypeError} :
      condition.typeOf scopes = .ok .bool → (thenBranch.check scopes.push).1 = .error error →
      Verdict scopes (.conditional condition thenBranch elseBranch) (.error error, scopes)
  | badIfCondition {condition : Expr} {thenBranch elseBranch : Stmt} {found : Ty} :
      condition.typeOf scopes = .ok found → found ≠ .bool →
      Verdict scopes (.conditional condition thenBranch elseBranch)
        (.error (.badIfCondition found), scopes)
  | badLoopCondition {condition : Expr} {body : Stmt} {found : Ty} :
      condition.typeOf scopes = .ok found → found ≠ .bool →
      Verdict scopes (.loop condition body) (.error (.badLoopCondition found), scopes)

theorem Verdict.frames_tail {scopes : Scopes Ty} {statement : Stmt} {checked : Checked}
    (hverdict : Verdict scopes statement checked) :
    checked.2.frames.tail = scopes.frames.tail := by
  cases hverdict with
  | declared hname hinitial => exact scopes.frames_tail_declare _ _
  | _ => rfl

-- The recursion is on the statement, for any scopes: a branch is checked in a frame of its own, and
-- a statement of a block behind those that stand before it.
mutual

theorem verdict_check (statement : Stmt) (scopes : Scopes Ty) :
    Verdict scopes statement (statement.check scopes) := by
  cases statement with
  | empty => exact .empty
  | block body =>
      rw [check, inFrame_eq_of_frames_tail (frames_tail_checkAll body scopes.push)]
      exact .block rfl
  | declaration name type initial =>
      rw [check]
      split
      · next hbound => exact .redeclared hbound
      · next hunbound =>
          split
          · next herror => exact .untyped rfl herror
          · next found hinitial =>
              split
              · next hfits =>
                  obtain rfl : found = type := of_decide_eq_true hfits
                  exact .declared (by simpa [Scopes.isBound] using hunbound) hinitial
              · next hfits => exact .badInitialValue hinitial (Ty.ne_of_not_fits hfits)
  | assignment name value =>
      rw [check]
      split
      · next hname => exact .undeclared hname
      · next expected hname =>
          split
          · next herror => exact .untyped rfl herror
          · next found hvalue =>
              split
              · next hfits =>
                  obtain rfl : found = expected := of_decide_eq_true hfits
                  exact .assigned hname hvalue
              · next hfits => exact .badAssignment hname hvalue (Ty.ne_of_not_fits hfits)
  | conditional condition thenBranch elseBranch =>
      have hthen := (verdict_check thenBranch scopes.push).frames_tail
      have helse := (verdict_check elseBranch scopes.push).frames_tail
      rw [check, inFrame_eq_of_frames_tail hthen]
      split
      · next herror => exact .untyped rfl herror
      · next hcondition =>
          cases houtcome : (thenBranch.check scopes.push).1 with
          | error error => exact .badBranch hcondition houtcome
          | ok value =>
              change Verdict scopes _ (inFrame elseBranch.check scopes)
              rw [inFrame_eq_of_frames_tail helse]
              exact .conditional hcondition houtcome rfl
      · next hne hcondition => exact .badIfCondition hcondition hne
  | loop condition body =>
      have hbody := (verdict_check body scopes.push).frames_tail
      rw [check, inFrame_eq_of_frames_tail hbody]
      split
      · next herror => exact .untyped rfl herror
      · next hcondition => exact .loop hcondition rfl
      · next hne hcondition => exact .badLoopCondition hcondition hne
  | expression value =>
      rw [check]
      split
      · next herror => exact .untyped rfl herror
      · next htype => exact .expression htype

theorem frames_tail_checkAll (statements : List Stmt) (scopes : Scopes Ty) :
    (checkAll statements scopes).2.frames.tail = scopes.frames.tail := by
  cases statements with
  | nil => rfl
  | cons first rest =>
      have hfirst := (verdict_check first scopes).frames_tail
      rw [checkAll]
      split
      · next hchecked =>
          rw [hchecked] at hfirst
          exact hfirst
      · next hchecked =>
          rw [hchecked] at hfirst
          exact (frames_tail_checkAll rest _).trans hfirst

end

/-- A statement in a frame of its own leaves the scopes as they were. -/
theorem inFrame_check (statement : Stmt) (scopes : Scopes Ty) :
    inFrame statement.check scopes = ((statement.check scopes.push).1, scopes) :=
  inFrame_eq_of_frames_tail (verdict_check statement scopes.push).frames_tail

theorem inFrame_checkAll (statements : List Stmt) (scopes : Scopes Ty) :
    inFrame (checkAll statements) scopes = ((checkAll statements scopes.push).1, scopes) :=
  inFrame_eq_of_frames_tail (frames_tail_checkAll statements scopes.push)

end Stmt

end WhileCompiler
