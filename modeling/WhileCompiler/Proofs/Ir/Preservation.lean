import WhileCompiler.Proofs.Ir.ComputedValues

/-!
# Lowering keeps the meaning of programs

Running the code of a statement does what evaluating the statement with one store does, for every
meaning of the functions that are called.  The run is followed through the statement: it reaches the
end of the code of each part with the values that evaluation gives, and where evaluation is cut off
after a number of rounds, the run has taken at least as many steps.
-/

namespace WhileCompiler

open Ir Semantics

variable {σ ε : Type} {calls : Calls σ ε} {code : List Command} {limit : Nat}

namespace Ir

/-- A run has come to a position, with the given values. -/
structure Finished (stop : Nat) (values : String → Int32) (last : Point) : Prop where
  position : last.position = stop
  same : SameSources last.values values

end Ir

namespace Stmt

/-- The code of a statement follows its evaluation, wherever it stands. -/
def Simulated (calls : Calls σ ε) (limit : Nat) (statement : Stmt) : Prop :=
  ∀ (names : Names) (code : List Command) (point : Point) (values : String → Int32) (state : σ),
    (labels code).Nodup → Placed code point.position (statement.lower names).code →
    SameSources point.values values →
    Follows calls code limit (Finished (point.position + (statement.lower names).code.length)) point
      state (statement.exec .flat calls limit values state)

def AllSimulated (calls : Calls σ ε) (limit : Nat) (statements : List Stmt) : Prop :=
  ∀ (names : Names) (code : List Command) (point : Point) (values : String → Int32) (state : σ),
    (labels code).Nodup → Placed code point.position (lowerAll statements names).code →
    SameSources point.values values →
    Follows calls code limit (Finished (point.position + (lowerAll statements names).code.length))
      point state (execAll .flat calls limit statements values state)

theorem simulated_empty : Simulated calls limit .empty := by
  intro names code point values state _ _ hsame
  exact .done ⟨rfl, hsame⟩

theorem allSimulated_nil : AllSimulated calls limit [] := by
  intro names code point values state _ _ hsame
  exact .done ⟨rfl, hsame⟩

theorem allSimulated_cons {first : Stmt} {rest : List Stmt}
    (hfirst : Simulated calls limit first) (hrest : AllSimulated calls limit rest) :
    AllSimulated calls limit (first :: rest) := by
  intro names code point values state hnodup hplaced hsame
  refine (hfirst names code point values state hnodup hplaced.left hsame).bind ?_
  intro values middle between hfinished
  have hplaced' : Placed code middle.position (lowerAll rest (first.lower names).names).code :=
    hfinished.position ▸ hplaced.right
  refine (hrest _ code middle values between hnodup hplaced' hfinished.same).weaken ?_
  intro values last hlast
  refine ⟨?_, hlast.same⟩
  rw [hlast.position, hfinished.position]
  simp [lowerAll, Nat.add_assoc]

/-- The code of an expression, followed by a copy of its value to a variable. -/
theorem follows_store {names : Names} {point : Point} {values : String → Int32} {state : σ}
    {name : String} {value : Expr} (hvalue : value.Simulated calls)
    (hplaced : Placed code point.position
      ((value.lower names).code ++ [Command.copy name (value.lower names).result]))
    (hsame : SameSources point.values values) :
    Follows calls code limit
      (Finished (point.position +
        ((value.lower names).code ++ [Command.copy name (value.lower names).result]).length))
      point state
      ((value.eval calls values state).bind fun result state =>
        .done (fun other => if other = name then result else values other) state) := by
  refine (hvalue names code limit point values state hplaced.left hsame).bind ?_
  intro result middle between hcomputed
  have hcommand : code[middle.position]? = some (.copy name (value.lower names).result) := by
    rw [hcomputed.position]
    exact hplaced.right.head
  refine .step (step_copy hcommand between) (.done ⟨?_, ?_⟩)
  · rw [Point.assign, hcomputed.position]
    simp [Nat.add_assoc]
  · intro other hother
    have hkept := hcomputed.kept.sameSources hsame other hother
    simp only [Point.assign, hcomputed.result, hkept]

/-- A test goes on behind its jump if it holds, and behind the label of the jump otherwise. -/
theorem follows_test {α : Type} {names : Names} {condition : Expr} {target : String} {index : Nat}
    {point : Point} {values : String → Int32} {state : σ} {reached : α → Point → Prop}
    {next : Int32 → σ → Outcome σ ε α} (hcondition : condition.Simulated calls)
    (hnodup : (labels code).Nodup) (hplaced : Placed code point.position (condition.lower names).code)
    (hbranch : code[point.position + (condition.lower names).code.length]? =
      some (.jumpUnless target (condition.lower names).result))
    (hlabel : code[index]? = some (.label target)) (hsame : SameSources point.values values)
    (hfails : ∀ last final, last.position = index + 1 → SameSources last.values values →
      Follows calls code limit reached last final (next 0 final))
    (hholds : ∀ test last final, test ≠ 0 →
      last.position = point.position + (condition.lower names).code.length + 1 →
        SameSources last.values values →
          Follows calls code limit reached last final (next test final)) :
    Follows calls code limit reached point state
      ((condition.eval calls values state).bind next) := by
  refine (hcondition names code limit point values state hplaced hsame).bind ?_
  intro test middle between hcomputed
  have hsame := hcomputed.kept.sameSources hsame
  rw [← hcomputed.position] at hbranch
  by_cases hzero : test = 0
  · have htest := hcomputed.result.trans hzero
    rw [hzero]
    exact .step (step_jumpUnless_of_zero hnodup hbranch hlabel htest between)
      (hfails _ _ rfl hsame)
  · have htest := hcomputed.result ▸ hzero
    refine .step (step_jumpUnless_of_ne hbranch htest between) (hholds _ _ _ hzero ?_ hsame)
    exact congrArg (· + 1) hcomputed.position

theorem exec_flat_conditional (condition : Expr) (thenBranch elseBranch : Stmt)
    (values : String → Int32) (state : σ) :
    (conditional condition thenBranch elseBranch).exec .flat calls limit values state =
      (condition.eval calls values state).bind fun test state =>
        if test = 0 then elseBranch.exec .flat calls limit values state
        else thenBranch.exec .flat calls limit values state := by
  simp only [exec, Outcome.bind_done_right, Storage.flat]

theorem simulated_ifThen {condition : Expr} {thenBranch elseBranch : Stmt}
    (hempty : elseBranch.isEmpty = true) (hcondition : condition.Simulated calls)
    (hthen : Simulated calls limit thenBranch) :
    Simulated calls limit (.conditional condition thenBranch elseBranch) := by
  intro names code point values state hnodup hplaced hsame
  obtain rfl : elseBranch = .empty := by cases elseBranch <;> trivial
  rw [exec_flat_conditional]
  rw [lower_ifThen hempty] at hplaced ⊢
  simp only at hplaced ⊢
  -- From here on it only matters where the label stands, not what it is called.
  generalize ((names.fresh elseStem).2.fresh endIfStem).1 = endLabel at hplaced ⊢
  generalize ((names.fresh elseStem).2.fresh endIfStem).2 = names at hplaced ⊢
  have hbody := hplaced.left.right.tail
  have hend := hplaced.right.head
  refine follows_test hcondition hnodup hplaced.left.left hplaced.left.right.head hend hsame ?_ ?_
  · intro last final hlast hsame
    rw [if_pos rfl]
    refine .done ⟨?_, hsame⟩
    rw [hlast]
    simp [Nat.add_assoc]
  · intro test middle between hne hmiddle hsame
    -- The branch is followed by the label at its end, and so is the first of two parts.
    rw [if_neg hne, ← Outcome.bind_done_right (exec _ _ _ _ _ _)]
    refine (hthen _ code middle values between hnodup (hmiddle ▸ hbody) hsame).bind ?_
    intro values last final hfinished
    have hposition : last.position = point.position + ((condition.lower names).code ++
        .jumpUnless endLabel (condition.lower names).result ::
          (thenBranch.lower (condition.lower names).names).code).length := by
      rw [hfinished.position, hmiddle]
      simp [Nat.add_assoc, Nat.add_comm 1]
    refine .step (step_label (hposition ▸ hend) final) (.done ⟨?_, hfinished.same⟩)
    rw [Point.next, hposition]
    simp [Nat.add_assoc]

theorem simulated_ifThenElse {condition : Expr} {thenBranch elseBranch : Stmt}
    (hempty : elseBranch.isEmpty = false) (hcondition : condition.Simulated calls)
    (hthen : Simulated calls limit thenBranch) (helse : Simulated calls limit elseBranch) :
    Simulated calls limit (.conditional condition thenBranch elseBranch) := by
  intro names code point values state hnodup hplaced hsame
  rw [exec_flat_conditional]
  rw [lower_ifThenElse hempty] at hplaced ⊢
  simp only at hplaced ⊢
  generalize (names.fresh elseStem).1 = elseLabel at hplaced ⊢
  generalize ((names.fresh elseStem).2.fresh endIfStem).1 = endLabel at hplaced ⊢
  generalize ((names.fresh elseStem).2.fresh endIfStem).2 = names at hplaced ⊢
  generalize helseNames : (thenBranch.lower (condition.lower names).names).names = elseNames
    at hplaced ⊢
  -- The parts of the code, in the order in which they stand.
  have htest := hplaced.left.left.left.left
  have hbranch := hplaced.left.left.left.right.head
  have hbody := hplaced.left.left.left.right.tail
  have hjump := hplaced.left.left.right.head
  have helseLabel := hplaced.left.left.right.tail.head
  have helseBody := hplaced.left.right
  have hend := hplaced.right.head
  refine follows_test hcondition hnodup htest hbranch helseLabel hsame ?_ ?_
  · intro middle between hmiddle hsame
    rw [if_pos rfl, ← Outcome.bind_done_right (exec _ _ _ _ _ _)]
    refine .bind (helse elseNames code _ values between hnodup ?_ hsame) ?_
    · rw [hmiddle]
      simpa [Nat.add_assoc] using helseBody
    intro values last final hfinished
    have hposition : last.position = point.position + ((condition.lower names).code ++
        Command.jumpUnless elseLabel (condition.lower names).result ::
          (thenBranch.lower (condition.lower names).names).code ++
        [Command.jump endLabel, Command.label elseLabel] ++
          (elseBranch.lower elseNames).code).length := by
      rw [hfinished.position, hmiddle]
      simp [Nat.add_assoc, Nat.add_comm 3]
    refine .step (step_label (hposition ▸ hend) final) (.done ⟨?_, hfinished.same⟩)
    rw [Point.next, hposition]
    simp [Nat.add_assoc]
  · intro test middle between hne hmiddle hsame
    rw [if_neg hne, ← Outcome.bind_done_right (exec _ _ _ _ _ _)]
    refine (hthen _ code middle values between hnodup (hmiddle ▸ hbody) hsame).bind ?_
    intro values last final hfinished
    have hposition : last.position = point.position + ((condition.lower names).code ++
        Command.jumpUnless elseLabel (condition.lower names).result ::
          (thenBranch.lower (condition.lower names).names).code).length := by
      rw [hfinished.position, hmiddle]
      simp [Nat.add_assoc, Nat.add_comm 1]
    refine .step (step_jump hnodup (hposition ▸ hjump) hend final) (.done ⟨?_, hfinished.same⟩)
    simp [Nat.add_assoc]

/-- Rounds of a loop, from behind the label at its head. -/
theorem follows_rounds {names : Names} {headLabel endLabel : String} {condition : Expr}
    {body : Stmt} {start : Nat} (hcondition : condition.Simulated calls)
    (hbody : Simulated calls limit body) (hnodup : (labels code).Nodup)
    (hplaced : Placed code start (((.label headLabel :: (condition.lower names).code) ++
      .jumpUnless endLabel (condition.lower names).result ::
        (body.lower (condition.lower names).names).code) ++
      [.jump headLabel, .label endLabel]))
    {rounds : Nat} (hrounds : rounds ≤ limit) {point : Point} {values : String → Int32}
    {state : σ} (hposition : point.position = start + 1)
    (hsame : SameSources point.values values) :
    Follows calls code rounds
      (Finished (start + (condition.lower names).code.length +
        (body.lower (condition.lower names).names).code.length + 4)) point state
      (Outcome.iterate (fun values state =>
        (condition.eval calls values state).bind fun test state =>
          if test = 0 then .done (values, false) state
          else (body.exec .flat calls limit values state).bind
            fun values state => .done (values, true) state)
        rounds values state) := by
  have hhead := hplaced.left.left.head
  have htest := hplaced.left.left.tail
  have hbranch := hplaced.left.right.head
  have hinner := hplaced.left.right.tail
  have hback := hplaced.right.head
  have hend := hplaced.right.tail.head
  have hbehind : start + (Command.label headLabel :: (condition.lower names).code).length =
      start + 1 + (condition.lower names).code.length := by
    rw [List.length_cons]
    omega
  rw [hbehind] at hbranch hinner
  -- By induction on the rounds that are left: each begins behind the label at the head.
  induction rounds generalizing point values state with
  | zero => exact ⟨0, point, state, Nat.le_refl 0, .refl⟩
  | succ rounds ih =>
      simp only [Outcome.iterate, Outcome.bind_assoc]
      rw [← hposition] at htest hbranch hinner
      refine follows_test hcondition hnodup htest hbranch hend hsame ?_ ?_
      · intro last final hlast hsame
        simp only [if_true, Outcome.bind_done]
        refine .done ⟨?_, hsame⟩
        rw [hlast]
        simp
        omega
      · intro test middle between hne hmiddle hsame
        simp only [hne, if_false, Outcome.bind_assoc]
        refine .bind ((hbody _ code middle values between hnodup (hmiddle ▸ hinner) hsame).mono
          hrounds) ?_
        intro values last final hfinished
        have hlast : last.position = start + (Command.label headLabel ::
            (condition.lower names).code ++
            Command.jumpUnless endLabel (condition.lower names).result ::
              (body.lower (condition.lower names).names).code).length := by
          rw [hfinished.position, hmiddle, hposition]
          simp
          omega
        refine .after_step (step_jump hnodup (hlast ▸ hback) hhead final) ?_
        exact ih (by omega) rfl hfinished.same

theorem simulated_loop {condition : Expr} {body : Stmt} (hcondition : condition.Simulated calls)
    (hbody : Simulated calls limit body) : Simulated calls limit (.loop condition body) := by
  intro names code point values state hnodup hplaced hsame
  simp only [lower, exec, Storage.flat] at hplaced ⊢
  generalize (names.fresh loopHeadStem).1 = headLabel at hplaced ⊢
  generalize ((names.fresh loopHeadStem).2.fresh loopEndStem).1 = endLabel at hplaced ⊢
  generalize ((names.fresh loopHeadStem).2.fresh loopEndStem).2 = names at hplaced ⊢
  refine .step (step_label hplaced.left.left.head state) ?_
  refine .weaken
    (follows_rounds hcondition hbody hnodup hplaced (Nat.le_refl limit) rfl hsame) ?_
  intro values last hfinished
  refine ⟨?_, hfinished.same⟩
  rw [hfinished.position]
  simp
  omega

mutual

theorem simulated (statement : Stmt) (hsources : ∀ name ∈ statement.vars, ¬ IsTemporary name) :
    Simulated calls limit statement := by
  cases statement with
  | empty => exact simulated_empty
  | block body =>
      intro names code point values state hnodup hplaced hsame
      simp only [exec, Outcome.bind_done_right, Storage.flat]
      exact allSimulated body hsources names code point values state hnodup hplaced hsame
  | declaration name type value =>
      intro names code point values state _ hplaced hsame
      have hvalue : value.Simulated calls := value.simulated fun name hname =>
        hsources name (List.mem_cons_of_mem _ hname)
      exact follows_store hvalue hplaced hsame
  | assignment name value =>
      intro names code point values state _ hplaced hsame
      have hvalue : value.Simulated calls := value.simulated fun name hname =>
        hsources name (List.mem_cons_of_mem _ hname)
      exact follows_store hvalue hplaced hsame
  | conditional condition thenBranch elseBranch =>
      have hcondition : condition.Simulated calls := condition.simulated fun name hname =>
        hsources name (by simp [vars, hname])
      have hthen := thenBranch.simulated fun name hname => hsources name (by simp [vars, hname])
      cases hempty : elseBranch.isEmpty with
      | true => exact simulated_ifThen hempty hcondition hthen
      | false =>
          exact simulated_ifThenElse hempty hcondition hthen
            (elseBranch.simulated fun name hname => hsources name (by simp [vars, hname]))
  | loop condition body =>
      exact simulated_loop
        (condition.simulated fun name hname => hsources name (by simp [vars, hname]))
        (body.simulated fun name hname => hsources name (by simp [vars, hname]))
  | expression value =>
      intro names code point values state _ hplaced hsame
      refine (value.simulated hsources names code limit point values state hplaced hsame).bind ?_
      intro result last final hcomputed
      exact .done ⟨hcomputed.position, hcomputed.kept.sameSources hsame⟩

theorem allSimulated (statements : List Stmt)
    (hsources : ∀ name ∈ varsAll statements, ¬ IsTemporary name) :
    AllSimulated calls limit statements := by
  cases statements with
  | nil => exact allSimulated_nil
  | cons first rest =>
      exact allSimulated_cons
        (first.simulated fun name hname => hsources name (by simp [varsAll, hname]))
        (allSimulated rest fun name hname => hsources name (by simp [varsAll, hname]))

end

/-- A run that follows a computation to its end has the outcome of that computation, whatever more
steps it may take. -/
theorem matches_run {stop : Nat} {values : String → Int32} {state : σ}
    {outcome : Outcome σ ε (String → Int32)} (hstop : code[stop]? = none)
    (hfollows : Follows calls code limit (Finished stop) ⟨0, values⟩ state outcome)
    (hreached : outcome ≠ .unfinished) :
    ∃ count, ∀ more, outcome.Matches SameSources
      (Ir.run calls code (count + 1 + more) values state) := by
  cases outcome with
  | done result final =>
      obtain ⟨count, last, hsteps, hfinished⟩ := hfollows
      refine ⟨count, fun more => ?_⟩
      have hstep : last.step calls code final = .done (last, false) final := by
        simp only [Point.step, hfinished.position, hstop]
      rw [Ir.run, Nat.add_assoc, hsteps.run_eq, Nat.add_comm 1]
      simp only [Point.run, Outcome.iterate, hstep, Outcome.bind_done, Bool.false_eq_true, if_false]
      exact .done fun name hname => (hfinished.same name hname).symm
  | failed error final =>
      obtain ⟨count, last, before, hsteps, hstep⟩ := hfollows
      refine ⟨count, fun more => ?_⟩
      rw [Ir.run, Nat.add_assoc, hsteps.run_eq, Nat.add_comm 1]
      simp only [Point.run, Outcome.iterate, hstep, Outcome.bind_failed]
      exact .failed
  | unfinished => exact absurd rfl hreached

/-- A run of the lowered code reaches the outcomes of the statement, on the program's variables. -/
theorem agree_run {statement : Stmt} (hsources : ∀ name ∈ statement.vars, ¬ IsTemporary name)
    (calls : Calls σ ε) (values : String → Int32) (state : σ) :
    Agree SameSources (fun rounds => statement.exec .flat calls rounds values state)
      (fun steps => Ir.run calls statement.toIr steps values state) := by
  have hfollows (limit : Nat) : Follows calls statement.toIr limit (Finished statement.toIr.length)
      ⟨0, values⟩ state (statement.exec .flat calls limit values state) := by
    have hsimulated : statement.Simulated calls limit := statement.simulated hsources
    have hwhole := hsimulated .initial statement.toIr ⟨0, values⟩ values state
      (statement.labelled_lower .initial).nodup (placed_self _) fun name _ => rfl
    rwa [Nat.zero_add] at hwhole
  have hstop : statement.toIr[statement.toIr.length]? = none := by simp
  refine ⟨fun rounds hreached => ?_, fun steps hreached => ⟨steps, ?_⟩⟩
  · obtain ⟨count, hmatches⟩ := matches_run hstop (hfollows rounds) hreached
    exact ⟨count + 1, hmatches 0⟩
  · by_cases hcut : statement.exec .flat calls steps values state = .unfinished
    · have hcounted := hfollows steps
      rw [hcut] at hcounted
      obtain ⟨count, last, final, hcount, hsteps⟩ := hcounted
      have hlonger := run_mono hreached hcount
      rw [← hlonger, Ir.run, ← Nat.add_zero count, hsteps.run_eq] at hreached
      exact absurd rfl hreached
    · obtain ⟨count, hmatches⟩ := matches_run hstop (hfollows steps) hcut
      have hlonger := run_mono hreached (Nat.le_add_left steps (count + 1))
      exact hlonger ▸ hmatches steps

end Stmt

end WhileCompiler
