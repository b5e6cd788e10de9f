import WhileCompiler.Proofs.Ir.LoweredCode

/-!
# Where commands come from

Every command of lowered code either computes an expression of the program, or does with its value
what the program does with the expression, or is a label or a jump that depends on nothing.
Conversely, every value that the program gives to a name is copied to it.
-/

namespace WhileCompiler

open Ir

/-- What a command does for one of the actions of a program, in code that computes the expression of
the action. -/
inductive Origin (actions : List Action) (code : List Command) : Command → Prop
  | computing (action : Action) {names : Names} {command : Command} :
      action ∈ actions → (action.value.lower names).code ⊆ code →
      command ∈ (action.value.lower names).code → Origin actions code command
  | storing (action : Action) {names : Names} {target : String} :
      action ∈ actions → action.target? = some target →
      (action.value.lower names).code ⊆ code →
      Origin actions code (.copy target (action.value.lower names).result)
  | testing {condition : Expr} {names : Names} {target : String} :
      .test condition ∈ actions → (condition.lower names).code ⊆ code →
      Origin actions code (.jumpUnless target (condition.lower names).result)
  | label {name : String} : Origin actions code (.label name)
  | jump {target : String} : Origin actions code (.jump target)

theorem Origin.mono {fewer more : List Action} {part whole : List Command} {command : Command}
    (horigin : Origin fewer part command) (hactions : fewer ⊆ more) (hcode : part ⊆ whole) :
    Origin more whole command := by
  cases horigin with
  | computing action haction hpart hmem =>
      exact .computing action (hactions haction) (fun _ h => hcode (hpart h)) hmem
  | storing action haction htarget hpart =>
      exact .storing action (hactions haction) htarget fun _ h => hcode (hpart h)
  | testing haction hpart => exact .testing (hactions haction) fun _ h => hcode (hpart h)
  | label => exact .label
  | jump => exact .jump

namespace Stmt

theorem origin_stored (action : Action) {target : String} (htarget : action.target? = some target)
    (names : Names) :
    ∀ command ∈ (action.value.lower names).code ++ [.copy target (action.value.lower names).result],
      Origin [action] ((action.value.lower names).code ++
        [.copy target (action.value.lower names).result]) command := by
  intro command hmem
  rcases List.mem_append.1 hmem with hmem | hmem
  · exact .computing action (List.mem_singleton_self _) (List.subset_append_left _ _) hmem
  · obtain rfl := List.mem_singleton.1 hmem
    exact .storing action (List.mem_singleton_self _) htarget (List.subset_append_left _ _)

theorem origin_condition {condition : Expr} {inner : List Action} {names : Names}
    {code : List Command} (hcode : (condition.lower names).code ⊆ code) {command : Command}
    (hmem : command ∈ (condition.lower names).code) :
    Origin (.test condition :: inner) code command :=
  .computing (.test condition) List.mem_cons_self hcode hmem

theorem origin_branch {condition : Expr} {inner : List Action} {names : Names}
    {code : List Command} (hcode : (condition.lower names).code ⊆ code) (target : String) :
    Origin (.test condition :: inner) code (.jumpUnless target (condition.lower names).result) :=
  .testing List.mem_cons_self hcode

mutual

theorem origin_lower (statement : Stmt) (names : Names) :
    ∀ command ∈ (statement.lower names).code,
      Origin statement.actions (statement.lower names).code command := by
  cases statement with
  | empty => exact fun command hmem => absurd hmem List.not_mem_nil
  | block body => exact origin_lowerAll body names
  | declaration name type value => exact origin_stored (.declare name type value) rfl names
  | assignment name value => exact origin_stored (.assign name value) rfl names
  | conditional condition thenBranch elseBranch =>
      intro command hmem
      cases hempty : elseBranch.isEmpty with
      | true =>
          rw [lower_ifThen hempty] at hmem ⊢
          simp only [List.mem_append, List.mem_cons, List.not_mem_nil, or_false] at hmem
          rcases hmem with (hcondition | rfl | hthen) | rfl
          · exact origin_condition (by simp) hcondition
          · exact origin_branch (by simp) _
          · exact (origin_lower thenBranch _ command hthen).mono (by simp [actions])
              fun _ h => by simp [h]
          · exact .label
      | false =>
          rw [lower_ifThenElse hempty] at hmem ⊢
          simp only [List.mem_append, List.mem_cons, List.not_mem_nil, or_false] at hmem
          rcases hmem with (((hcondition | rfl | hthen) | rfl | rfl) | helse) | rfl
          · exact origin_condition (by simp) hcondition
          · exact origin_branch (by simp) _
          · exact (origin_lower thenBranch _ command hthen).mono (by simp [actions])
              fun _ h => by simp [h]
          · exact .jump
          · exact .label
          · exact (origin_lower elseBranch _ command helse).mono (by simp [actions])
              fun _ h => by simp [h]
          · exact .label
  | loop condition body =>
      intro command hmem
      simp only [lower, List.mem_append, List.mem_cons, List.not_mem_nil, or_false] at hmem ⊢
      rcases hmem with ((rfl | hcondition) | rfl | hbody) | rfl | rfl
      · exact .label
      · exact origin_condition (by simp) hcondition
      · exact origin_branch (by simp) _
      · exact (origin_lower body _ command hbody).mono (by simp [actions]) fun _ h => by simp [h]
      · exact .jump
      · exact .label
  | expression value =>
      exact fun command hmem =>
        .computing (.evaluate value) (List.mem_singleton_self _) (List.Subset.refl _) hmem

theorem origin_lowerAll (statements : List Stmt) (names : Names) :
    ∀ command ∈ (lowerAll statements names).code,
      Origin (actionsAll statements) (lowerAll statements names).code command := by
  cases statements with
  | nil => exact fun command hmem => absurd hmem List.not_mem_nil
  | cons first rest =>
      intro command hmem
      rcases List.mem_append.1 hmem with hmem | hmem
      · exact (origin_lower first names command hmem).mono (List.subset_append_left _ _)
          (List.subset_append_left _ _)
      · exact (origin_lowerAll rest _ command hmem).mono (List.subset_append_right _ _)
          (List.subset_append_right _ _)

end

theorem thenBranch_subset_lower (condition : Expr) (thenBranch elseBranch : Stmt) (names : Names) :
    ∃ inner, (thenBranch.lower inner).code ⊆
      ((conditional condition thenBranch elseBranch).lower names).code := by
  cases hempty : elseBranch.isEmpty with
  | true =>
      rw [lower_ifThen hempty]
      exact ⟨_, List.subset_append_of_subset_left _
        (List.subset_append_of_subset_right _ (List.subset_cons_self _ _))⟩
  | false =>
      rw [lower_ifThenElse hempty]
      exact ⟨_, List.subset_append_of_subset_left _ (List.subset_append_of_subset_left _
        (List.subset_append_of_subset_left _
          (List.subset_append_of_subset_right _ (List.subset_cons_self _ _))))⟩

theorem elseBranch_subset_lower (condition : Expr) (thenBranch elseBranch : Stmt) (names : Names) :
    ∃ inner, (elseBranch.lower inner).code ⊆
      ((conditional condition thenBranch elseBranch).lower names).code := by
  cases hempty : elseBranch.isEmpty with
  | true =>
      have hnone : elseBranch = .empty := by
        cases elseBranch with
        | empty => rfl
        | _ => cases hempty
      exact ⟨names, hnone ▸ List.nil_subset _⟩
  | false =>
      rw [lower_ifThenElse hempty]
      exact ⟨_, List.subset_append_of_subset_left _ (List.subset_append_right _ _)⟩

theorem body_subset_lower (condition : Expr) (body : Stmt) (names : Names) :
    ∃ inner, (body.lower inner).code ⊆ ((loop condition body).lower names).code := by
  simp only [lower]
  exact ⟨_, List.subset_append_of_subset_left _
    (List.subset_append_of_subset_right _ (List.subset_cons_self _ _))⟩

mutual

/-- The result of an action's value is copied to its target, if it has one. -/
theorem copy_mem_lower (statement : Stmt) (names : Names) :
    ∀ action ∈ statement.actions, ∀ target ∈ action.target?,
      ∃ inner, .copy target (action.value.lower inner).result ∈ (statement.lower names).code := by
  intro action haction target htarget
  cases statement with
  | empty => cases haction
  | block body => exact copy_mem_lowerAll body names action haction target htarget
  | declaration name type value =>
      obtain rfl := List.mem_singleton.1 haction
      obtain rfl := Option.some.inj htarget
      exact ⟨names, List.mem_append_right _ (List.mem_singleton_self _)⟩
  | assignment name value =>
      obtain rfl := List.mem_singleton.1 haction
      obtain rfl := Option.some.inj htarget
      exact ⟨names, List.mem_append_right _ (List.mem_singleton_self _)⟩
  | conditional condition thenBranch elseBranch =>
      rcases List.mem_cons.1 haction with rfl | haction
      · cases htarget
      · rcases List.mem_append.1 haction with haction | haction
        · obtain ⟨inner, hsubset⟩ := thenBranch_subset_lower condition thenBranch elseBranch names
          obtain ⟨last, hcopy⟩ := copy_mem_lower thenBranch inner action haction target htarget
          exact ⟨last, hsubset hcopy⟩
        · obtain ⟨inner, hsubset⟩ := elseBranch_subset_lower condition thenBranch elseBranch names
          obtain ⟨last, hcopy⟩ := copy_mem_lower elseBranch inner action haction target htarget
          exact ⟨last, hsubset hcopy⟩
  | loop condition body =>
      rcases List.mem_cons.1 haction with rfl | haction
      · cases htarget
      · obtain ⟨inner, hsubset⟩ := body_subset_lower condition body names
        obtain ⟨last, hcopy⟩ := copy_mem_lower body inner action haction target htarget
        exact ⟨last, hsubset hcopy⟩
  | expression value =>
      obtain rfl := List.mem_singleton.1 haction
      cases htarget

theorem copy_mem_lowerAll (statements : List Stmt) (names : Names) :
    ∀ action ∈ actionsAll statements, ∀ target ∈ action.target?,
      ∃ inner, .copy target (action.value.lower inner).result ∈
        (lowerAll statements names).code := by
  intro action haction target htarget
  cases statements with
  | nil => cases haction
  | cons first rest =>
      rcases List.mem_append.1 haction with haction | haction
      · obtain ⟨inner, hcopy⟩ := copy_mem_lower first names action haction target htarget
        exact ⟨inner, List.mem_append_left _ hcopy⟩
      · obtain ⟨inner, hcopy⟩ := copy_mem_lowerAll rest _ action haction target htarget
        exact ⟨inner, List.mem_append_right _ hcopy⟩

end

end Stmt

end WhileCompiler
