import WhileCompiler.Ir.Basic

/-!
# Labels and jumps

The labels that code defines, and whether its jumps lead to them.  A label that is defined only once
is found where it stands.
-/

namespace WhileCompiler.Ir

/-- The label that a command defines. -/
def Command.label? : Command → Option String
  | .label name => some name
  | _ => none

/-- The labels that code defines, in order. -/
def labels (code : List Command) : List String :=
  code.filterMap Command.label?

@[simp] theorem labels_nil : labels [] = [] := rfl

@[simp] theorem labels_append (left right : List Command) :
    labels (left ++ right) = labels left ++ labels right :=
  List.filterMap_append

@[simp] theorem labels_cons_label (name : String) (rest : List Command) :
    labels (.label name :: rest) = name :: labels rest := rfl

@[simp] theorem labels_cons_jump (target : String) (rest : List Command) :
    labels (.jump target :: rest) = labels rest := rfl

@[simp] theorem labels_cons_jumpUnless (target : String) (condition : Value)
    (rest : List Command) : labels (.jumpUnless target condition :: rest) = labels rest := rfl

@[simp] theorem labels_cons_copy (destination : String) (value : Value) (rest : List Command) :
    labels (.copy destination value :: rest) = labels rest := rfl

theorem mem_labels {code : List Command} {name : String} :
    name ∈ labels code ↔ .label name ∈ code := by
  rw [labels, List.mem_filterMap]
  constructor
  · rintro ⟨command, hmem, hlabel⟩
    cases command <;> cases hlabel
    exact hmem
  · intro hmem
    exact ⟨.label name, hmem, rfl⟩

/-- A label that is defined once is found where it stands. -/
theorem idxOf?_label {code : List Command} (hnodup : (labels code).Nodup) {position : Nat}
    {name : String} (hlabel : code[position]? = some (.label name)) :
    code.idxOf? (.label name) = some position := by
  obtain ⟨hposition, hget⟩ := List.getElem?_eq_some_iff.1 hlabel
  refine List.idxOf?_eq_some_iff.2 ⟨hposition, hget, ?_⟩
  intro other hlt hother
  have hpairs := List.pairwise_iff_getElem.1 (List.pairwise_filterMap.1 hnodup) other position
    (Nat.lt_trans hlt hposition) hposition hlt
  rw [hother, hget] at hpairs
  exact hpairs name rfl name rfl rfl

/-- Whether code jumps only to the given labels. -/
def JumpsTo (defined : List String) (code : List Command) : Prop :=
  ∀ command ∈ code, ∀ target ∈ command.target?, target ∈ defined

theorem JumpsTo.mono {defined more : List String} {code : List Command}
    (hcode : JumpsTo defined code) (hsubset : defined ⊆ more) : JumpsTo more code :=
  fun command hmem target htarget => hsubset (hcode command hmem target htarget)

theorem jumpsTo_append {defined : List String} {left right : List Command} :
    JumpsTo defined (left ++ right) ↔ JumpsTo defined left ∧ JumpsTo defined right := by
  simp only [JumpsTo, List.mem_append, or_imp, forall_and]

theorem jumpsTo_nil (defined : List String) : JumpsTo defined [] :=
  fun _ hmem => absurd hmem List.not_mem_nil

theorem jumpsTo_cons {defined : List String} {command : Command} {rest : List Command} :
    JumpsTo defined (command :: rest) ↔
      (∀ target ∈ command.target?, target ∈ defined) ∧ JumpsTo defined rest := by
  simp only [JumpsTo, List.mem_cons, forall_eq_or_imp]

section

variable {defined : List String} {rest : List Command} {target : String}

theorem jumpsTo_cons_copy {value : Value} :
    JumpsTo defined (.copy target value :: rest) ↔ JumpsTo defined rest := by
  simp [jumpsTo_cons, Command.target?]

theorem jumpsTo_cons_label :
    JumpsTo defined (.label target :: rest) ↔ JumpsTo defined rest := by
  simp [jumpsTo_cons, Command.target?]

theorem jumpsTo_cons_jump :
    JumpsTo defined (.jump target :: rest) ↔ target ∈ defined ∧ JumpsTo defined rest := by
  simp [jumpsTo_cons, Command.target?]

theorem jumpsTo_cons_jumpUnless {condition : Value} :
    JumpsTo defined (.jumpUnless target condition :: rest) ↔
      target ∈ defined ∧ JumpsTo defined rest := by
  simp [jumpsTo_cons, Command.target?]

end

/-- Code that jumps only within itself. -/
def JumpsWithin (code : List Command) : Prop :=
  JumpsTo (labels code) code

theorem JumpsWithin.append {left right : List Command} (hleft : JumpsWithin left)
    (hright : JumpsWithin right) : JumpsWithin (left ++ right) := by
  rw [JumpsWithin, labels_append, jumpsTo_append]
  refine ⟨?_, ?_⟩
  · exact hleft.mono (List.subset_append_left _ _)
  · exact hright.mono (List.subset_append_right _ _)

end WhileCompiler.Ir
