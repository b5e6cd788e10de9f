import WhileCompiler.Ir.Lowering
import WhileCompiler.Proofs.Text.Numerals

/-!
# Names that have not been drawn before

A stem never ends in a digit, so that a name tells its stem and its number.  Two stretches of a
program that draw their names one after the other therefore have no name in common, whatever the
stems are.
-/

namespace WhileCompiler.Ir

/-- A text that can be told from the number behind it. -/
def IsStem (stem : String) : Prop :=
  ∀ c ∈ stem.toList.getLast?, c.isDigit = false

theorem isStem_of_mem_labelStems {stem : String} (hmem : stem ∈ labelStems) : IsStem stem := by
  have hstems : labelStems.all (fun stem => stem.toList.getLast?.all fun c => !c.isDigit) := by
    decide
  have hstem := List.all_eq_true.1 hstems stem hmem
  intro c hc
  simpa using (Option.all_eq_true _ _).1 hstem c hc

theorem toList_temporaryStem (function : String) :
    (temporaryStem function).toList = "$resultOf_".toList ++ function.toList ++ ['_'] := by
  simp only [temporaryStem, String.toList_append]
  rfl

theorem isStem_temporaryStem (function : String) : IsStem (temporaryStem function) := by
  intro c hc
  rw [toList_temporaryStem, List.getLast?_concat] at hc
  cases hc
  rfl

namespace Names

/-- The names with which a stretch of a program goes on were drawn after those before it. -/
def Before (earlier later : Names) : Prop :=
  ∀ stem, earlier.count stem ≤ later.count stem

theorem Before.refl (names : Names) : names.Before names :=
  fun _ => Nat.le_refl _

theorem Before.trans {first second third : Names} (hfirst : first.Before second)
    (hsecond : second.Before third) : first.Before third :=
  fun stem => Nat.le_trans (hfirst stem) (hsecond stem)

theorem before_fresh (names : Names) (stem : String) : names.Before (names.fresh stem).2 := by
  intro other
  rw [count_fresh]
  split
  · next heq => subst heq; exact Nat.le_succ _
  · exact Nat.le_refl _

/-- A name that was drawn between two states. -/
def Drawn (earlier later : Names) (name : String) : Prop :=
  ∃ stem number, IsStem stem ∧ name = stem ++ toString number ∧
    earlier.count stem < number ∧ number ≤ later.count stem

theorem drawn_fresh (names : Names) {stem : String} (hstem : IsStem stem) :
    Drawn names (names.fresh stem).2 (names.fresh stem).1 := by
  refine ⟨stem, names.count stem + 1, hstem, rfl, Nat.lt_succ_self _, Nat.le_of_eq ?_⟩
  rw [count_fresh, if_pos rfl]

theorem Drawn.widen {earlier later outerEarlier outerLater : Names} {name : String}
    (hdrawn : Drawn earlier later name) (hearlier : outerEarlier.Before earlier)
    (hlater : later.Before outerLater) : Drawn outerEarlier outerLater name := by
  obtain ⟨stem, number, hstem, hname, hlower, hupper⟩ := hdrawn
  exact ⟨stem, number, hstem, hname, Nat.lt_of_le_of_lt (hearlier stem) hlower,
    Nat.le_trans hupper (hlater stem)⟩

/-- Nothing that was drawn before a point is drawn after it. -/
theorem Drawn.not_drawn {first second third fourth : Names} {name : String}
    (hdrawn : Drawn first second name) (hbefore : second.Before third) :
    ¬ Drawn third fourth name := by
  rintro ⟨stem', number', hstem', hname', hlower', -⟩
  obtain ⟨stem, number, hstem, hname, -, hupper⟩ := hdrawn
  obtain ⟨rfl, rfl⟩ := Text.numbered_inj hstem hstem' (hname.symm.trans hname')
  exact absurd (Nat.lt_of_le_of_lt (Nat.le_trans hupper (hbefore stem)) hlower')
    (Nat.lt_irrefl _)

/-- Two lists of names that were drawn one after the other have no name in common. -/
theorem nodup_append_of_drawn {first second third : Names} {left right : List String}
    (hleft : ∀ name ∈ left, Drawn first second name)
    (hright : ∀ name ∈ right, Drawn second third name) (hleftNodup : left.Nodup)
    (hrightNodup : right.Nodup) : (left ++ right).Nodup := by
  refine List.nodup_append.2 ⟨hleftNodup, hrightNodup, ?_⟩
  rintro name hmem _ hother rfl
  exact (hleft name hmem).not_drawn (.refl second) (hright name hother)

end Names

/-- A name that is kept for the results of calls. -/
def IsTemporary (name : String) : Prop :=
  name.toList.head? = some '$'

instance (name : String) : Decidable (IsTemporary name) :=
  inferInstanceAs (Decidable (_ = _))

theorem isTemporary_fresh (names : Names) (function : String) :
    IsTemporary (names.fresh (temporaryStem function)).1 := by
  rw [IsTemporary, Names.fresh, String.toList_append, toList_temporaryStem]
  rfl

/-- A name that is made for a label. -/
def IsLabelName (name : String) : Prop :=
  ∃ stem ∈ labelStems, ∃ number : Nat, name = stem ++ toString number

theorem IsLabelName.isIdentifier {name : String} (hname : IsLabelName name) :
    Text.isIdentifier name.toList = true := by
  obtain ⟨stem, hstem, number, rfl⟩ := hname
  have hstems : labelStems.all (fun stem => Text.isIdentifier stem.toList) = true := by decide
  have hidentifier := List.all_eq_true.1 hstems stem hstem
  rw [String.toList_append]
  cases hchars : stem.toList with
  | nil => rw [hchars] at hidentifier; cases hidentifier
  | cons first rest =>
      rw [hchars, Text.isIdentifier, Bool.and_eq_true] at hidentifier
      have hdigits : (toString number).toList.all Text.continuesIdentifier = true := by
        apply List.all_eq_true.2
        intro c hmem
        simp [Text.continuesIdentifier, Char.isAlphanum, Text.isDigit_of_mem_toString hmem]
      rw [List.cons_append, Text.isIdentifier, List.all_append, hidentifier.2, hdigits]
      simpa using hidentifier.1

theorem IsLabelName.isGeneratedLabel {name : String} (hname : IsLabelName name) :
    isGeneratedLabel name = true := by
  obtain ⟨stem, hstem, number, rfl⟩ := hname
  have hnumeral : Text.isNumeral (toString number).toList = true := by
    rw [Text.isNumeral, Bool.and_eq_true, List.all_eq_true]
    exact ⟨by simp, fun c hmem => Text.isDigit_of_mem_toString hmem⟩
  rw [Ir.isGeneratedLabel, List.any_eq_true]
  refine ⟨stem, hstem, ?_⟩
  rw [String.toList_append, ← String.length_toList, List.drop_left, hnumeral, Bool.and_true]
  exact List.isPrefixOf_iff_prefix.2 (List.prefix_append _ _)

end WhileCompiler.Ir
