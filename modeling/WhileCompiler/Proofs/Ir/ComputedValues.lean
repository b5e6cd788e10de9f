import WhileCompiler.Proofs.Ir.LoweredCode
import WhileCompiler.Proofs.Ir.Placement
import WhileCompiler.Proofs.Semantics.Agreement
import WhileCompiler.Semantics.Evaluation

/-!
# Running the code of expressions

The code of an expression makes the calls that evaluating the expression makes, and leaves its value
where it can be read.  No temporary changes between the call that gives it its value and the command
that reads it, and the variables of the program do not change at all.
-/

namespace WhileCompiler

open Ir Semantics

namespace Ir

variable {σ ε α β : Type} {calls : Calls σ ε} {code : List Command} {limit : Nat}

/-- Both stores have the same values, temporaries aside. -/
def SameSources (left right : String → Int32) : Prop :=
  ∀ name, ¬ IsTemporary name → left name = right name

/-- Nothing has changed but temporaries that were drawn between two states. -/
def Kept (earlier later : Names) (start last : Point) : Prop :=
  ∀ name, ¬ (IsTemporary name ∧ Names.Drawn earlier later name) →
    last.values name = start.values name

theorem Kept.trans {first second third : Names} {start middle last : Point}
    (hfirst : Kept first second start middle) (hsecond : Kept second third middle last)
    (hstart : first.Before second) (hend : second.Before third) : Kept first third start last := by
  intro name hname
  rw [hsecond name fun hdrawn => hname ⟨hdrawn.1, hdrawn.2.widen hstart (.refl third)⟩]
  exact hfirst name fun hdrawn => hname ⟨hdrawn.1, hdrawn.2.widen (.refl first) hend⟩

theorem Kept.sameSources {earlier later : Names} {start last : Point} {values : String → Int32}
    (hkept : Kept earlier later start last) (hsame : SameSources start.values values) :
    SameSources last.values values := by
  intro name hname
  rw [hkept name fun hdrawn => hname hdrawn.1]
  exact hsame name hname

/-- A run is behind a stretch of code that computes a value, which can now be read. -/
structure Computed (names : Names) (lowered : Lowered α) (read : (String → Int32) → α → β)
    (start : Point) (value : β) (last : Point) : Prop where
  position : last.position = start.position + lowered.code.length
  kept : Kept names lowered.names start last
  result : read last.values lowered.result = value

def readAll (values : String → Int32) (operands : List Value) : List Int32 :=
  operands.map (Value.read values)

/-- A value that later computations cannot change. -/
def IsStable (earlier later : Names) (value : Value) : Prop :=
  ∀ name, value = .variable name → ¬ IsTemporary name ∨ Names.Drawn earlier later name

theorem IsStable.read_eq {first second third : Names} {value : Value} {start last : Point}
    (hstable : IsStable first second value) (hkept : Kept second third start last) :
    value.read last.values = value.read start.values := by
  rcases value with value | name
  · rfl
  · refine hkept name fun hdrawn => ?_
    rcases hstable name rfl with hsource | hearlier
    · exact hsource hdrawn.1
    · exact hearlier.not_drawn (.refl second) hdrawn.2

end Ir

namespace Expr

variable {σ ε : Type} {calls : Calls σ ε}

/-- The result is a constant, a variable of the program or a temporary drawn by the code itself. -/
theorem isStable_lower (expression : Expr) (names : Names)
    (hsources : ∀ name ∈ expression.vars, ¬ IsTemporary name) :
    IsStable names (expression.lower names).names (expression.lower names).result := by
  have hcall (arguments : Lowered (List Value)) (function : String)
      (harguments : names.Before arguments.names) :
      IsStable names (arguments.call function).names (arguments.call function).result := by
    rintro name ⟨⟩
    exact .inr ((Names.drawn_fresh _ (isStem_temporaryStem function)).widen harguments (.refl _))
  cases expression with
  | int value => rintro name ⟨⟩
  | bool value => rintro name ⟨⟩
  | var source =>
      rintro name ⟨⟩
      exact .inl (hsources source (by simp [vars]))
  | unary operator operand => exact hcall _ _ (operand.computes_lower names).before
  | binary operator left right =>
      exact hcall _ _ ((left.computes_lower names).append (right.computes_lower _)).before
  | call function arguments => exact hcall _ _ (computes_lowerAll arguments names).before

/-- The code of an expression follows its evaluation, wherever it stands. -/
def Simulated (calls : Calls σ ε) (expression : Expr) : Prop :=
  ∀ (names : Names) (code : List Command) (limit : Nat) (point : Point)
    (values : String → Int32) (state : σ),
    Placed code point.position (expression.lower names).code →
    SameSources point.values values →
    Follows calls code limit
      (Computed names (expression.lower names) (fun values => Value.read values) point)
      point state (expression.eval calls values state)

def AllSimulated (calls : Calls σ ε) (expressions : List Expr) : Prop :=
  ∀ (names : Names) (code : List Command) (limit : Nat) (point : Point)
    (values : String → Int32) (state : σ),
    Placed code point.position (lowerAll expressions names).code →
    SameSources point.values values →
    Follows calls code limit (Computed names (lowerAll expressions names) readAll point)
      point state (evalAll calls values expressions state)

theorem simulated_of_lower {expression : Expr} {result : Value} {value : (String → Int32) → Int32}
    (hlower : ∀ names, expression.lower names = ⟨[], result, names⟩)
    (heval : ∀ values (state : σ), expression.eval calls values state = .done (value values) state)
    (hresult : ∀ stored values, SameSources stored values → result.read stored = value values) :
    Simulated calls expression := by
  intro names code limit point values state _ hsame
  rw [heval, hlower]
  exact .done ⟨rfl, fun name _ => rfl, hresult _ _ hsame⟩

theorem allSimulated_nil : AllSimulated calls [] := by
  intro names code limit point values state _ _
  exact .done ⟨rfl, fun name _ => rfl, rfl⟩

theorem allSimulated_cons {first : Expr} {rest : List Expr} (hfirst : Simulated calls first)
    (hsources : ∀ name ∈ first.vars, ¬ IsTemporary name) (hrest : AllSimulated calls rest) :
    AllSimulated calls (first :: rest) := by
  intro names code limit point values state hplaced hsame
  refine (hfirst names code limit point values state hplaced.left hsame).bind ?_
  intro value middle between hvalue
  have hplaced' : Placed code middle.position (lowerAll rest (first.lower names).names).code :=
    hvalue.position ▸ hplaced.right
  refine (hrest _ code limit middle values between hplaced'
    (hvalue.kept.sameSources hsame)).bind ?_
  intro others last final hothers
  refine .done ⟨?_, ?_, ?_⟩
  · rw [hothers.position, hvalue.position]
    simp [lowerAll, Nat.add_assoc]
  · exact hvalue.kept.trans hothers.kept (first.computes_lower names).before
      (computes_lowerAll rest _).before
  · have hstable := (first.isStable_lower names hsources).read_eq hothers.kept
    simp only [lowerAll, readAll, List.map_cons, hstable, hvalue.result]
    exact congrArg (value :: ·) hothers.result

/-- A call follows once its arguments do. -/
theorem follows_call {names : Names} {code : List Command} {limit : Nat} {point : Point}
    {state : σ} {arguments : Lowered (List Value)} {outcome : Outcome σ ε (List Int32)}
    {function : String} (hbefore : names.Before arguments.names)
    (hplaced : Placed code point.position (arguments.call function).code)
    (harguments : Follows calls code limit (Computed names arguments readAll point) point state
      outcome) :
    Follows calls code limit
      (Computed names (arguments.call function) (fun values => Value.read values) point) point
      state (outcome.bind fun values state => calls.invoke function values state) := by
  refine harguments.bind ?_
  intro values middle between hvalues
  have hcommand : code[middle.position]? =
      some (.call (arguments.names.fresh (temporaryStem function)).1 function
        arguments.result) := by
    rw [hvalues.position]
    exact hplaced.right.head
  rw [← hvalues.result]
  refine (follows_invoke hcommand limit between).weaken ?_
  rintro result _ rfl
  refine ⟨?_, ?_, ?_⟩
  · rw [Point.assign, hvalues.position]
    simp [Lowered.call, Nat.add_assoc]
  · have hfresh := arguments.names.before_fresh (temporaryStem function)
    intro name hname
    refine (if_neg ?_).trans ?_
    rotate_left
    · exact hvalues.kept name fun hdrawn =>
        hname ⟨hdrawn.1, hdrawn.2.widen (.refl names) hfresh⟩
    · rintro rfl
      exact hname ⟨isTemporary_fresh _ _,
        (Names.drawn_fresh _ (isStem_temporaryStem function)).widen hbefore (.refl _)⟩
  · simp [Lowered.call, Value.read, Point.assign]

mutual

theorem simulated (expression : Expr)
    (hsources : ∀ name ∈ expression.vars, ¬ IsTemporary name) :
    Simulated calls expression := by
  cases expression with
  | int value => exact simulated_of_lower (fun _ => rfl) (fun _ _ => rfl) (fun _ _ _ => rfl)
  | bool value =>
      exact simulated_of_lower (fun _ => rfl) (fun _ _ => rfl) (fun _ _ _ => rfl)
  | var name =>
      refine simulated_of_lower (fun _ => rfl) (fun _ _ => rfl) ?_
      intro stored values hsame
      exact hsame name (hsources name (by simp [vars]))
  | unary operator operand =>
      have hoperand : AllSimulated calls [operand] :=
        allSimulated_cons (operand.simulated hsources) hsources allSimulated_nil
      intro names code limit point values state hplaced hsame
      rw [lower_unary] at hplaced ⊢
      have hfollows := follows_call (computes_lowerAll [operand] names).before hplaced
        (hoperand names code limit point values state hplaced.left hsame)
      simpa [eval, evalAll, Outcome.bind_assoc] using hfollows
  | binary operator left right =>
      have hleft : ∀ name ∈ left.vars, ¬ IsTemporary name := fun name hname =>
        hsources name (by simp [vars, hname])
      have hright : ∀ name ∈ right.vars, ¬ IsTemporary name := fun name hname =>
        hsources name (by simp [vars, hname])
      have hoperands : AllSimulated calls [left, right] :=
        allSimulated_cons (left.simulated hleft) hleft
          (allSimulated_cons (right.simulated hright) hright allSimulated_nil)
      intro names code limit point values state hplaced hsame
      rw [lower_binary] at hplaced ⊢
      have hfollows := follows_call (computes_lowerAll [left, right] names).before hplaced
        (hoperands names code limit point values state hplaced.left hsame)
      simpa [eval, evalAll, Outcome.bind_assoc] using hfollows
  | call function arguments =>
      intro names code limit point values state hplaced hsame
      exact follows_call (computes_lowerAll arguments names).before hplaced
        (allSimulated arguments hsources names code limit point values state hplaced.left hsame)

theorem allSimulated (expressions : List Expr)
    (hsources : ∀ name ∈ varsAll expressions, ¬ IsTemporary name) :
    AllSimulated calls expressions := by
  cases expressions with
  | nil => exact allSimulated_nil
  | cons first rest =>
      have hfirst : ∀ name ∈ first.vars, ¬ IsTemporary name := fun name hname =>
        hsources name (by simp [varsAll, hname])
      exact allSimulated_cons (first.simulated hfirst) hfirst
        (allSimulated rest fun name hname => hsources name (by simp [varsAll, hname]))

end

end Expr

end WhileCompiler
