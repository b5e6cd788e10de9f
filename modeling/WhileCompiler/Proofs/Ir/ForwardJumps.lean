import WhileCompiler.Proofs.Ir.LoweredCode

/-!
# Forward jumps

Only loops jump back.  The code of a statement without loops jumps ahead: each label that control
may go to stands further on in the code.
-/

namespace WhileCompiler

open Ir

namespace Stmt

mutual

/-- Whether no loop occurs in a statement. -/
def isLoopFree : Stmt → Bool
  | .empty | .declaration _ _ _ | .assignment _ _ | .expression _ => true
  | .block body => areLoopFree body
  | .conditional _ thenBranch elseBranch => thenBranch.isLoopFree && elseBranch.isLoopFree
  | .loop _ _ => false

/-- Whether no loop occurs in any of some statements. -/
def areLoopFree : List Stmt → Bool
  | [] => true
  | first :: rest => first.isLoopFree && areLoopFree rest

end

end Stmt

namespace Ir

/-- Whether each command goes only to labels behind it, in the code or beyond its end. -/
def JumpsAhead (beyond : List String) : List Command → Prop
  | [] => True
  | command :: rest =>
    (∀ target ∈ command.target?, target ∈ labels rest ++ beyond) ∧ JumpsAhead beyond rest

section

variable {beyond further : List String} {code left right rest : List Command} {target : String}

theorem JumpsAhead.mono (hcode : JumpsAhead beyond code) (hsubset : beyond ⊆ further) :
    JumpsAhead further code := by
  induction code with
  | nil => trivial
  | cons command rest ih =>
      refine ⟨fun target htarget => ?_, ih hcode.2⟩
      exact List.append_subset.2
        ⟨List.subset_append_left _ _, List.subset_append_of_subset_right _ hsubset⟩
        (hcode.1 target htarget)

/-- The labels of later code lie beyond the end of the code in front of it. -/
theorem jumpsAhead_append :
    JumpsAhead beyond (left ++ right) ↔
      JumpsAhead (labels right ++ beyond) left ∧ JumpsAhead beyond right := by
  induction left with
  | nil => simp [JumpsAhead]
  | cons command rest ih =>
      simp only [List.cons_append, JumpsAhead, ih, labels_append, List.append_assoc, and_assoc]

theorem jumpsAhead_label (name : String) : JumpsAhead beyond [.label name] :=
  ⟨nofun, trivial⟩

theorem jumpsAhead_cons_jump :
    JumpsAhead beyond (.jump target :: rest) ↔
      target ∈ labels rest ++ beyond ∧ JumpsAhead beyond rest := by
  simp [JumpsAhead, Command.target?]

theorem jumpsAhead_cons_jumpUnless {condition : Value} :
    JumpsAhead beyond (.jumpUnless target condition :: rest) ↔
      target ∈ labels rest ++ beyond ∧ JumpsAhead beyond rest := by
  simp [JumpsAhead, Command.target?]

/-- Code that goes nowhere goes nowhere back. -/
theorem jumpsAhead_of_target?_none (hcode : ∀ command ∈ code, command.target? = none) :
    JumpsAhead beyond code := by
  induction code with
  | nil => trivial
  | cons command rest ih =>
      rw [List.forall_mem_cons] at hcode
      refine ⟨fun target htarget => ?_, ih hcode.2⟩
      rw [hcode.1] at htarget
      cases htarget

theorem IsComputation.target?_eq_none {earlier later : Names} {command : Command}
    (hcomputation : IsComputation earlier later command) : command.target? = none := by
  obtain ⟨temporary, function, arguments, rfl, -⟩ := hcomputation
  rfl

theorem Computes.jumpsAhead {earlier later : Names} (hcode : Computes earlier later code) :
    JumpsAhead beyond code :=
  jumpsAhead_of_target?_none fun command hmem => (hcode.computation command hmem).target?_eq_none

theorem jumpsAhead_stored {earlier later : Names} (hcode : Computes earlier later code)
    (name : String) (value : Value) : JumpsAhead beyond (code ++ [.copy name value]) :=
  jumpsAhead_append.2 ⟨hcode.jumpsAhead, nofun, trivial⟩

end

end Ir

mutual

theorem Stmt.jumpsAhead_lower {statement : Stmt} (hfree : statement.isLoopFree = true)
    (names : Names) : JumpsAhead [] (statement.lower names).code := by
  cases statement with
  | empty => trivial
  | block body => exact Stmt.jumpsAhead_lowerAll hfree names
  | declaration name type value => exact jumpsAhead_stored (value.computes_lower names) _ _
  | assignment name value => exact jumpsAhead_stored (value.computes_lower names) _ _
  | conditional condition thenBranch elseBranch =>
      rw [Stmt.isLoopFree, Bool.and_eq_true] at hfree
      have hcondition (names : Names) (beyond : List String) :
          JumpsAhead beyond (condition.lower names).code :=
        (condition.computes_lower names).jumpsAhead
      have hthen (names : Names) (beyond : List String) :
          JumpsAhead beyond (thenBranch.lower names).code :=
        (Stmt.jumpsAhead_lower hfree.1 names).mono (List.nil_subset beyond)
      have helse (names : Names) (beyond : List String) :
          JumpsAhead beyond (elseBranch.lower names).code :=
        (Stmt.jumpsAhead_lower hfree.2 names).mono (List.nil_subset beyond)
      cases hempty : elseBranch.isEmpty with
      | true =>
          rw [Stmt.lower_ifThen hempty]
          simp only [jumpsAhead_append, jumpsAhead_cons_jumpUnless, labels_cons_label, labels_nil]
          exact ⟨⟨hcondition _ _, by simp, hthen _ _⟩, jumpsAhead_label _⟩
      | false =>
          rw [Stmt.lower_ifThenElse hempty]
          simp only [jumpsAhead_append, jumpsAhead_cons_jumpUnless, jumpsAhead_cons_jump,
            labels_cons_label, labels_nil]
          exact ⟨⟨⟨⟨hcondition _ _, by simp, hthen _ _⟩, by simp, jumpsAhead_label _⟩,
            helse _ _⟩, jumpsAhead_label _⟩
  | loop condition body => cases hfree
  | expression value => exact (value.computes_lower names).jumpsAhead

theorem Stmt.jumpsAhead_lowerAll {statements : List Stmt}
    (hfree : Stmt.areLoopFree statements = true) (names : Names) :
    JumpsAhead [] (Stmt.lowerAll statements names).code := by
  cases statements with
  | nil => trivial
  | cons first rest =>
      rw [Stmt.areLoopFree, Bool.and_eq_true] at hfree
      refine jumpsAhead_append.2 ⟨?_, Stmt.jumpsAhead_lowerAll hfree.2 _⟩
      exact (Stmt.jumpsAhead_lower hfree.1 names).mono (List.nil_subset _)

end

namespace Ir

/-- Whether each jump goes to a label that is defined in the code, and nowhere but further on. -/
def JumpsForward (code : List Command) : Prop :=
  ∀ (index : Nat) (command : Command) (target : String),
    code[index]? = some command → target ∈ command.target? →
      (∃ place : Nat, code[place]? = some (.label target)) ∧
        ∀ place : Nat, code[place]? = some (.label target) → index < place

variable {code : List Command}

/-- What a command goes to stands behind it. -/
theorem JumpsAhead.exists_label (hahead : JumpsAhead [] code) {index : Nat} {command : Command}
    {target : String} (hcommand : code[index]? = some command) (htarget : target ∈ command.target?) :
    ∃ place, index < place ∧ code[place]? = some (.label target) := by
  obtain ⟨hindex, hget⟩ := List.getElem?_eq_some_iff.1 hcommand
  rw [← List.take_append_drop index code, List.drop_eq_getElem_cons hindex, hget] at hahead
  have hlabel := (jumpsAhead_append.1 hahead).2.1 target htarget
  rw [List.append_nil] at hlabel
  obtain ⟨offset, hoffset⟩ := List.mem_iff_getElem?.1 (mem_labels.1 hlabel)
  rw [List.getElem?_drop] at hoffset
  exact ⟨index + 1 + offset, by omega, hoffset⟩

theorem JumpsAhead.jumpsForward (hahead : JumpsAhead [] code) (hnodup : (labels code).Nodup) :
    JumpsForward code := by
  intro index command target hcommand htarget
  obtain ⟨place, hlt, hplace⟩ := hahead.exists_label hcommand htarget
  refine ⟨⟨place, hplace⟩, fun other hother => ?_⟩
  have hsame := (idxOf?_label hnodup hplace).symm.trans (idxOf?_label hnodup hother)
  exact Option.some.inj hsame ▸ hlt

end Ir

/-- The code of a program without loops jumps only forward. -/
theorem Stmt.jumpsForward_toIr {program : Stmt} (hfree : program.isLoopFree = true) :
    JumpsForward program.toIr :=
  (Stmt.jumpsAhead_lower hfree .initial).jumpsForward (program.labelled_lower .initial).nodup

end WhileCompiler
