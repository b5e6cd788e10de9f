import WhileCompiler.Proofs.Ir.FreshNames

/-!
# Names that are drawn in turn

Requests for names of several stems may come in any order.  Each stem counts its own requests and
no others, so that the number of a name says which request for its stem it answers.  No name is
given twice, unless a stem ends in a digit.
-/

namespace WhileCompiler.Ir.Names

/-- The state of the names after a list of stems was requested in turn. -/
def after (names : Names) (stems : List String) : Names :=
  stems.foldl (fun names stem => (names.fresh stem).2) names

theorem draw_cons (names : Names) (stem : String) (rest : List String) :
    names.draw (stem :: rest) = (names.fresh stem).1 :: (names.fresh stem).2.draw rest := rfl

theorem after_cons (names : Names) (stem : String) (rest : List String) :
    names.after (stem :: rest) = (names.fresh stem).2.after rest := rfl

/-- One request adds one to the number of its own stem.  The sum is ordered such that the request
can move from the state to the requests that are still to come. -/
theorem count_fresh_add (names : Names) (stem other : String) (rest : List String) :
    (names.fresh stem).2.count other + rest.count other =
      names.count other + (stem :: rest).count other := by
  rw [count_fresh, List.count_cons]
  by_cases heq : other = stem
  · subst heq
    simp only [if_true, beq_self_eq_true]
    omega
  · have hne : (stem == other) = false := by simpa using fun h : stem = other => heq h.symm
    simp [heq, hne]

theorem count_after (names : Names) (stems : List String) (stem : String) :
    (names.after stems).count stem = names.count stem + stems.count stem := by
  induction stems generalizing names with
  | nil => rfl
  | cons first rest ih => rw [after_cons, ih, count_fresh_add]

theorem before_after (names : Names) (stems : List String) : names.Before (names.after stems) := by
  intro stem
  rw [count_after]
  exact Nat.le_add_right _ _

/-- The name at each place is the stem that was requested there, behind it the number of requests
for that stem up to there. -/
theorem getElem?_draw (names : Names) (stems : List String) (place : Nat) :
    (names.draw stems)[place]? = stems[place]?.map fun stem =>
      stem ++ toString (names.count stem + (stems.take (place + 1)).count stem) := by
  induction stems generalizing names place with
  | nil => rfl
  | cons first rest ih =>
      cases place with
      | zero => simp [draw_cons, fresh]
      | succ place =>
          rw [draw_cons, List.getElem?_cons_succ, List.getElem?_cons_succ, ih]
          simp only [List.take_succ_cons, count_fresh_add]

theorem drawn_of_mem_draw {names : Names} {stems : List String}
    (hstems : ∀ stem ∈ stems, IsStem stem) {name : String} (hmem : name ∈ names.draw stems) :
    Drawn names (names.after stems) name := by
  induction stems generalizing names with
  | nil => cases hmem
  | cons first rest ih =>
      obtain ⟨hfirst, hrest⟩ := List.forall_mem_cons.1 hstems
      rw [draw_cons, List.mem_cons] at hmem
      rw [after_cons]
      cases hmem with
      | inl heq =>
          subst heq
          exact (drawn_fresh names hfirst).widen (.refl names) (before_after _ rest)
      | inr hmem => exact (ih hrest hmem).widen (before_fresh names first) (.refl _)

theorem nodup_draw {names : Names} {stems : List String}
    (hstems : ∀ stem ∈ stems, IsStem stem) : (names.draw stems).Nodup := by
  induction stems generalizing names with
  | nil => exact List.nodup_nil
  | cons first rest ih =>
      obtain ⟨hfirst, hrest⟩ := List.forall_mem_cons.1 hstems
      have hname : ∀ name ∈ [(names.fresh first).1], Drawn names (names.fresh first).2 name := by
        intro name hmem
        rw [List.mem_singleton.1 hmem]
        exact drawn_fresh names hfirst
      exact nodup_append_of_drawn hname (fun _ => drawn_of_mem_draw hrest)
        (List.pairwise_singleton _ _) (ih hrest)

/-- Whatever is requested in between, the request with number `k` for a stem gives the stem and `k`
in decimal, and no two requests give the same name. -/
theorem draw_never_repeats (stems : List String) (hstems : ∀ stem ∈ stems, IsStem stem) :
    (initial.draw stems).Nodup ∧
      ∀ place, (initial.draw stems)[place]? = stems[place]?.map fun stem =>
        stem ++ toString ((stems.take (place + 1)).count stem) := by
  refine ⟨nodup_draw hstems, fun place => ?_⟩
  have hcount : ∀ stem, initial.count stem = 0 := fun _ => rfl
  simpa only [hcount, Nat.zero_add] using getElem?_draw initial stems place

/-- A stem that ends in a digit cannot be told from the number of another one. -/
example : ¬ (initial.draw ("f1" :: List.replicate 11 "f")).Nodup := by decide

/-- Loops, and between them the results of two functions whose names begin alike. -/
def interleaved : List String :=
  loopHeadStem :: temporaryStem "f_1" :: loopHeadStem :: List.replicate 11 (temporaryStem "f")

/-- The first result of `f_1` and the eleventh one of `f` differ in one underscore. -/
theorem draw_never_repeats_interleaved :
    (∀ stem ∈ interleaved, IsStem stem) ∧ (initial.draw interleaved).Nodup ∧
      (initial.draw interleaved)[1]? = some "$resultOf_f_1_1" ∧
      (initial.draw interleaved)[2]? = some "whileHead2" ∧
      (initial.draw interleaved)[13]? = some "$resultOf_f_11" := by
  have hloop : IsStem loopHeadStem := isStem_of_mem_labelStems (by decide)
  have hstems : ∀ stem ∈ interleaved, IsStem stem := by
    intro stem hmem
    simp only [interleaved, List.mem_cons, List.mem_replicate] at hmem
    rcases hmem with rfl | rfl | rfl | ⟨-, rfl⟩
    · exact hloop
    · exact isStem_temporaryStem "f_1"
    · exact hloop
    · exact isStem_temporaryStem "f"
  obtain ⟨hnodup, hnumbers⟩ := draw_never_repeats interleaved hstems
  refine ⟨hstems, hnodup, ?_, ?_, ?_⟩
  · exact (hnumbers 1).trans (by decide)
  · exact (hnumbers 2).trans (by decide)
  · exact (hnumbers 13).trans (by decide)

end WhileCompiler.Ir.Names
