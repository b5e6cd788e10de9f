import WhileCompiler.Stmt.Grammar

/-!
# The nearest else

The grammar leaves open to which of several nested conditionals an `else` belongs.  Whatever tokens
spell a statement also spell one in which it always belongs to the nearest: an `else` that was given
to an outer conditional is handed down to the innermost one that is still open.
-/

namespace WhileCompiler.Stmt

/-- Gives an `else` to the innermost conditional at the end of a statement that has none yet. -/
def completedBy (statement other : Stmt) : Stmt :=
  match statement with
  | .conditional condition thenBranch elseBranch =>
    if elseBranch.isEmpty then
      if thenBranch.endsOpen then .conditional condition (thenBranch.completedBy other) .empty
      else .conditional condition thenBranch other
    else .conditional condition thenBranch (elseBranch.completedBy other)
  | .loop condition body => .loop condition (body.completedBy other)
  | statement => statement

/-- Only a branch that was left out is empty. -/
theorem isEmpty_of_spells {tokens : List Token} {statement : Stmt}
    (hspells : Spells tokens statement) : statement.isEmpty = false := by
  cases hspells <;> rfl

section

variable {ifWord thenWord elseWord : Token} {test inner other : List Token} {condition : Expr}
  {thenBranch elseBranch completion : Stmt}

theorem nearestElse_ifThen :
    (conditional condition thenBranch .empty).nearestElse = thenBranch.nearestElse := by
  simp [nearestElse, isEmpty]

theorem nearestElse_ifThenElse (helse : elseBranch.isEmpty = false) :
    (conditional condition thenBranch elseBranch).nearestElse =
      (thenBranch.nearestElse && elseBranch.nearestElse && !thenBranch.endsOpen) := by
  rw [nearestElse, helse, Bool.false_or]

theorem completedBy_ifThen_of_open (hthen : thenBranch.endsOpen = true) :
    (conditional condition thenBranch .empty).completedBy completion =
      conditional condition (thenBranch.completedBy completion) .empty := by
  simp [completedBy, isEmpty, hthen]

theorem completedBy_ifThen_of_closed (hthen : thenBranch.endsOpen = false) :
    (conditional condition thenBranch .empty).completedBy completion =
      conditional condition thenBranch completion := by
  simp [completedBy, isEmpty, hthen]

theorem completedBy_ifThenElse (helse : elseBranch.isEmpty = false) :
    (conditional condition thenBranch elseBranch).completedBy completion =
      conditional condition thenBranch (elseBranch.completedBy completion) := by
  simp [completedBy, helse]

/-- Completing a statement whose end is open takes the place of an `else` behind it. -/
theorem spells_completedBy {tokens : List Token} {statement : Stmt}
    (helse : elseWord.kind = .elseWord) (hother : Spells other completion)
    (hnearest : completion.nearestElse = true) :
    Spells tokens statement → statement.nearestElse = true → statement.endsOpen = true →
      Spells (tokens ++ elseWord :: other) (statement.completedBy completion) ∧
        (statement.completedBy completion).nearestElse = true
  | .block _ _ _ => fun _ hopen => nomatch hopen
  | .declaration _ _ _ _ _ _ _ => fun _ hopen => nomatch hopen
  | .assignment _ _ _ _ => fun _ hopen => nomatch hopen
  | .expression _ _ => fun _ hopen => nomatch hopen
  | .loop hkind htest hdo hinner => fun hstatement hopen => by
      obtain ⟨hspells, hcompleted⟩ :=
        spells_completedBy helse hother hnearest hinner hstatement hopen
      refine ⟨?_, hcompleted⟩
      rw [List.append_assoc]
      exact .loop hkind htest hdo hspells
  | @Spells.ifThen _ _ _ _ _ thenBranch hkind htest hthen hinner => fun hstatement _ => by
      rw [nearestElse_ifThen] at hstatement
      cases hends : thenBranch.endsOpen with
      | true =>
          obtain ⟨hspells, hcompleted⟩ :=
            spells_completedBy helse hother hnearest hinner hstatement hends
          rw [completedBy_ifThen_of_open hends, nearestElse_ifThen, List.append_assoc]
          exact ⟨.ifThen hkind htest hthen hspells, hcompleted⟩
      | false =>
          rw [completedBy_ifThen_of_closed hends,
            nearestElse_ifThenElse (isEmpty_of_spells hother), hstatement, hnearest, hends]
          exact ⟨.ifThenElse hkind htest hthen hinner helse hother, rfl⟩
  | .ifThenElse hkind htest hthen hinner hword helseBranch => fun hstatement hopen => by
      have hempty := isEmpty_of_spells helseBranch
      rw [nearestElse_ifThenElse hempty, Bool.and_eq_true, Bool.and_eq_true] at hstatement
      rw [endsOpen, hempty, Bool.false_or] at hopen
      obtain ⟨hspells, hcompleted⟩ :=
        spells_completedBy helse hother hnearest helseBranch hstatement.1.2 hopen
      rw [completedBy_ifThenElse hempty, nearestElse_ifThenElse (isEmpty_of_spells hspells),
        hstatement.1.1, hstatement.2, hcompleted, List.append_assoc]
      exact ⟨.ifThenElse hkind htest hthen hinner hword hspells, rfl⟩

/-- An `else` behind a conditional has a place, whether or not the statement before it is open. -/
theorem exists_nearestElse_of_else (hif : ifWord.kind = .ifWord)
    (htest : Expr.Spells test condition) (hthen : thenWord.kind = .thenWord)
    (hinner : Spells inner thenBranch) (hthenBranch : thenBranch.nearestElse = true)
    (helse : elseWord.kind = .elseWord) (hother : Spells other elseBranch)
    (helseBranch : elseBranch.nearestElse = true) :
    ∃ statement, Spells (ifWord :: test ++ thenWord :: inner ++ elseWord :: other) statement ∧
      statement.nearestElse = true := by
  cases hends : thenBranch.endsOpen with
  | true =>
      obtain ⟨hspells, hcompleted⟩ :=
        spells_completedBy helse hother helseBranch hinner hthenBranch hends
      rw [List.append_assoc]
      exact ⟨_, .ifThen hif htest hthen hspells, nearestElse_ifThen.trans hcompleted⟩
  | false =>
      refine ⟨_, .ifThenElse hif htest hthen hinner helse hother, ?_⟩
      rw [nearestElse_ifThenElse (isEmpty_of_spells hother), hthenBranch, helseBranch, hends]
      rfl

end

mutual

/-- Tokens that spell a statement spell one in which each `else` belongs to the nearest `if`. -/
theorem exists_nearestElse {tokens : List Token} {statement : Stmt} :
    Spells tokens statement → ∃ nearest, Spells tokens nearest ∧ nearest.nearestElse = true
  | .block hopening hbody hclosing => by
      obtain ⟨body, hspells, hnearest⟩ := exists_allNearestElse hbody
      exact ⟨.block body, .block hopening hspells hclosing, hnearest⟩
  | .loop hkind htest hdo hinner => by
      obtain ⟨body, hspells, hnearest⟩ := exists_nearestElse hinner
      exact ⟨.loop _ body, .loop hkind htest hdo hspells, hnearest⟩
  | .ifThen hkind htest hthen hinner => by
      obtain ⟨thenBranch, hspells, hnearest⟩ := exists_nearestElse hinner
      exact ⟨_, .ifThen hkind htest hthen hspells, nearestElse_ifThen.trans hnearest⟩
  | .ifThenElse hkind htest hthen hinner helse hother => by
      obtain ⟨thenBranch, hthenSpells, hthenBranch⟩ := exists_nearestElse hinner
      obtain ⟨elseBranch, helseSpells, helseBranch⟩ := exists_nearestElse hother
      exact exists_nearestElse_of_else hkind htest hthen hthenSpells hthenBranch helse helseSpells
        helseBranch
  | .declaration hname hcolon htypeName htype hassign hvalue hsemicolon =>
      ⟨_, .declaration hname hcolon htypeName htype hassign hvalue hsemicolon, rfl⟩
  | .assignment hname hassign hvalue hsemicolon =>
      ⟨_, .assignment hname hassign hvalue hsemicolon, rfl⟩
  | .expression hvalue hsemicolon => ⟨_, .expression hvalue hsemicolon, rfl⟩

theorem exists_allNearestElse {tokens : List Token} {body : List Stmt} :
    SpellsBody tokens body → ∃ nearest, SpellsBody tokens nearest ∧ allNearestElse nearest = true
  | .nil => ⟨[], .nil, rfl⟩
  | .cons hfirst hrest => by
      obtain ⟨first, hfirstSpells, hfirstNearest⟩ := exists_nearestElse hfirst
      obtain ⟨rest, hrestSpells, hrestNearest⟩ := exists_allNearestElse hrest
      refine ⟨first :: rest, .cons hfirstSpells hrestSpells, ?_⟩
      rw [allNearestElse, hfirstNearest, hrestNearest, Bool.and_self]

end

end WhileCompiler.Stmt
