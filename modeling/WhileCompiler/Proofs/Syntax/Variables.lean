import WhileCompiler.Stmt

/-!
# What stands in a program

Which names a program uses as variables, and what it does with the expressions in it: which names
it gives values to, and where it does no more than copy one name to another.  Names of functions are
not counted among the variables.
-/

namespace WhileCompiler

namespace Expr

mutual

def vars : Expr → List String
  | .int _ | .bool _ => []
  | .var name => [name]
  | .unary _ operand => operand.vars
  | .binary _ left right => left.vars ++ right.vars
  | .call _ arguments => varsAll arguments

def varsAll : List Expr → List String
  | [] => []
  | first :: rest => first.vars ++ varsAll rest

end

end Expr

namespace Stmt

theorem eq_empty_of_isEmpty {statement : Stmt} (hempty : statement.isEmpty = true) :
    statement = .empty := by
  cases statement with
  | empty => rfl
  | _ => cases hempty

mutual

def vars : Stmt → List String
  | .empty => []
  | .block body => varsAll body
  | .declaration name _ value | .assignment name value => name :: value.vars
  | .conditional condition thenBranch elseBranch =>
    condition.vars ++ thenBranch.vars ++ elseBranch.vars
  | .loop condition body => condition.vars ++ body.vars
  | .expression value => value.vars

def varsAll : List Stmt → List String
  | [] => []
  | first :: rest => first.vars ++ varsAll rest

end

end Stmt

/-- What a statement does with an expression that stands in it. -/
inductive Action
  | declare (name : String) (type : Ty) (value : Expr)
  | assign (name : String) (value : Expr)
  | test (condition : Expr)
  | evaluate (value : Expr)

namespace Action

def value : Action → Expr
  | declare _ _ value | assign _ value | test value | evaluate value => value

/-- The name that is given the value. -/
def target? : Action → Option String
  | declare name _ _ | assign name _ => some name
  | test _ | evaluate _ => none

/-- The names that stand in what is done, the target first. -/
def vars (action : Action) : List String :=
  action.target?.toList ++ action.value.vars

/-- The names of an assignment that copies one to another, target first. -/
def copy? : Action → Option (String × String)
  | assign name (.var source) => some (name, source)
  | _ => none

end Action

namespace Stmt

mutual

/-- Everything that a statement does with expressions, in the order of the source. -/
def actions : Stmt → List Action
  | .empty => []
  | .block body => actionsAll body
  | .declaration name type value => [.declare name type value]
  | .assignment name value => [.assign name value]
  | .conditional condition thenBranch elseBranch =>
    .test condition :: (thenBranch.actions ++ elseBranch.actions)
  | .loop condition body => .test condition :: body.actions
  | .expression value => [.evaluate value]

def actionsAll : List Stmt → List Action
  | [] => []
  | first :: rest => first.actions ++ actionsAll rest

end

mutual

/-- The variables of a statement are those of its actions. -/
theorem vars_eq_flatMap (statement : Stmt) :
    statement.vars = statement.actions.flatMap Action.vars := by
  cases statement with
  | empty => rfl
  | block body => exact varsAll_eq_flatMap body
  | declaration name type value => simp [vars, actions, Action.vars, Action.target?, Action.value]
  | assignment name value => simp [vars, actions, Action.vars, Action.target?, Action.value]
  | conditional condition thenBranch elseBranch =>
      rw [vars, actions, List.flatMap_cons, List.flatMap_append, vars_eq_flatMap thenBranch,
        vars_eq_flatMap elseBranch, List.append_assoc]
      rfl
  | loop condition body =>
      rw [vars, actions, List.flatMap_cons, vars_eq_flatMap body]
      rfl
  | expression value => simp [vars, actions, Action.vars, Action.target?, Action.value]

theorem varsAll_eq_flatMap (statements : List Stmt) :
    varsAll statements = (actionsAll statements).flatMap Action.vars := by
  cases statements with
  | nil => rfl
  | cons first rest =>
      rw [varsAll, actionsAll, List.flatMap_append, vars_eq_flatMap first, varsAll_eq_flatMap rest]

end

theorem mem_vars_of_action {program : Stmt} {action : Action} (haction : action ∈ program.actions)
    {name : String} (hname : name ∈ action.vars) : name ∈ program.vars := by
  rw [vars_eq_flatMap]
  exact List.mem_flatMap.2 ⟨action, haction, hname⟩

/-- The names that a statement declares or assigns. -/
def targets (statement : Stmt) : List String :=
  statement.actions.filterMap Action.target?

theorem mem_vars_of_mem_targets {program : Stmt} {name : String}
    (hname : name ∈ program.targets) : name ∈ program.vars := by
  obtain ⟨action, haction, htarget⟩ := List.mem_filterMap.1 hname
  exact mem_vars_of_action haction (List.mem_append_left _ (Option.mem_toList.2 htarget))

/-- The assignments that copy one name to another, target first. -/
def copies (statement : Stmt) : List (String × String) :=
  statement.actions.filterMap Action.copy?

theorem mem_copies {statement : Stmt} {target name : String} :
    (target, name) ∈ statement.copies ↔ .assign target (.var name) ∈ statement.actions := by
  rw [copies, List.mem_filterMap]
  constructor
  · rintro ⟨action, haction, hcopy⟩
    unfold Action.copy? at hcopy
    split at hcopy
    · obtain ⟨rfl, rfl⟩ := Prod.mk.inj (Option.some.inj hcopy)
      exact haction
    · cases hcopy
  · exact fun haction => ⟨_, haction, rfl⟩

end Stmt

end WhileCompiler
