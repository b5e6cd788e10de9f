import WhileCompiler.Proofs.Ir.TypedCode
import WhileCompiler.Proofs.Syntax.FunctionNames

/-!
# The code of renamed programs

Lowering commutes with renaming variables.  Temporaries and labels take nothing from the names of
variables, so the code of a renamed program is the code of the program with its variables renamed.
-/

namespace WhileCompiler

namespace Ir

def Value.rename (g : String → String) : Value → Value
  | .constant value => .constant value
  | .variable name => .variable (g name)

/-- The command on renamed variables.  Labels and functions are none. -/
def Command.rename (g : String → String) : Command → Command
  | .copy destination value => .copy (g destination) (value.rename g)
  | .call destination function arguments =>
    .call (g destination) function (arguments.map (Value.rename g))
  | .label name => .label name
  | .jump target => .jump target
  | .jumpIf target condition => .jumpIf target (condition.rename g)
  | .jumpUnless target condition => .jumpUnless target (condition.rename g)

/-- The code on renamed variables, and what its result becomes. -/
def Lowered.rename {α : Type} (g : String → String) (convert : α → α) (lowered : Lowered α) :
    Lowered α :=
  ⟨lowered.code.map (Command.rename g), convert lowered.result, lowered.names⟩

/-- A renaming of the variables in code that does what `f` does to the variables of the program, and
nothing to temporaries. -/
structure Lifts (f g : String → String) (names : Set String) : Prop where
  vars : ∀ name ∈ names, g name = f name
  temporaries : ∀ name, IsTemporary name → g name = name

variable {f g : String → String} {names : Set String}

theorem Lowered.call_rename (hlifts : Lifts f g names) (arguments : Lowered (List Value))
    (function : String) :
    (arguments.rename g (List.map (Value.rename g))).call function =
      (arguments.call function).rename g (Value.rename g) := by
  have htemporary := hlifts.temporaries _ (isTemporary_fresh arguments.names function)
  simp only [Lowered.call, Lowered.rename, List.map_append, List.map_cons, List.map_nil,
    Command.rename, Value.rename, htemporary]

end Ir

open Ir

variable {f g : String → String} {names : Set String}

namespace Expr

/-- An expression whose code is renamed along with its variables. -/
def LowersAlike (f g : String → String) (expression : Expr) : Prop :=
  ∀ drawn, (expression.rename f).lower drawn = (expression.lower drawn).rename g (Value.rename g)

/-- Arguments whose code is renamed along with their variables. -/
def LowerAlike (f g : String → String) (expressions : List Expr) : Prop :=
  ∀ drawn, lowerAll (renameAll f expressions) drawn =
    (lowerAll expressions drawn).rename g (List.map (Value.rename g))

theorem lowerAlike_nil : LowerAlike f g [] :=
  fun _ => rfl

theorem LowersAlike.cons {first : Expr} {rest : List Expr} (hfirst : first.LowersAlike f g)
    (hrest : LowerAlike f g rest) : LowerAlike f g (first :: rest) := by
  intro drawn
  rw [renameAll, lowerAll, lowerAll, hfirst drawn]
  simp only [Lowered.rename, hrest _, List.map_append, List.map_cons]

mutual

/-- Lowering an expression commutes with renaming its variables. -/
theorem lowersAlike (hlifts : Lifts f g names) (expression : Expr)
    (hnames : Renames f names expression.vars expression.functions) :
    expression.LowersAlike f g := by
  intro drawn
  cases expression with
  | int value => rfl
  | bool value => rfl
  | var name =>
      have hname := hlifts.vars name (hnames.vars name (List.mem_singleton_self name))
      simp only [rename, lower, Lowered.rename, Value.rename, List.map_nil, hname]
  | unary operator operand =>
      have hoperand := lowersAlike hlifts operand (renames_cons_function.1 hnames).2
      rw [rename, lower_unary, lower_unary, ← Lowered.call_rename hlifts,
        ← hoperand.cons lowerAlike_nil]
      rfl
  | binary operator left right =>
      obtain ⟨hleft, hright⟩ := renames_append.1 (renames_cons_function.1 hnames).2
      have hoperands := (lowersAlike hlifts left hleft).cons
        ((lowersAlike hlifts right hright).cons lowerAlike_nil)
      rw [rename, lower_binary, lower_binary, ← Lowered.call_rename hlifts, ← hoperands]
      rfl
  | call function arguments =>
      obtain ⟨hfunction, harguments⟩ := renames_cons_function.1 hnames
      rw [rename, lower, lower, lowerAlike hlifts arguments harguments, hfunction.2]
      exact Lowered.call_rename hlifts _ function

theorem lowerAlike (hlifts : Lifts f g names) (expressions : List Expr)
    (hnames : Renames f names (varsAll expressions) (functionsAll expressions)) :
    LowerAlike f g expressions := by
  cases expressions with
  | nil => exact lowerAlike_nil
  | cons first rest =>
      obtain ⟨hfirst, hrest⟩ := renames_append.1 hnames
      exact (lowersAlike hlifts first hfirst).cons (lowerAlike hlifts rest hrest)

end

end Expr

namespace Stmt

mutual

/-- The code of a renamed statement is the renamed code of the statement. -/
theorem lower_rename (hlifts : Lifts f g names) (statement : Stmt)
    (hnames : RenamesAll f names statement.actions) (drawn : Names) :
    (statement.rename f).lower drawn = (statement.lower drawn).rename g id := by
  cases statement with
  | empty => rfl
  | block body => exact lowerAll_rename hlifts body hnames drawn
  | declaration name type value =>
      obtain ⟨hname, hvalue⟩ := renames_cons_var.1 (hnames _ (List.mem_singleton_self _))
      have hvalueCode := Expr.lowersAlike hlifts value hvalue
      simp only [rename, lower, hvalueCode _, hlifts.vars name hname, Lowered.rename,
        List.map_append, List.map_cons, List.map_nil, Command.rename, id]
  | assignment name value =>
      obtain ⟨hname, hvalue⟩ := renames_cons_var.1 (hnames _ (List.mem_singleton_self _))
      have hvalueCode := Expr.lowersAlike hlifts value hvalue
      simp only [rename, lower, hvalueCode _, hlifts.vars name hname, Lowered.rename,
        List.map_append, List.map_cons, List.map_nil, Command.rename, id]
  | conditional condition thenBranch elseBranch =>
      obtain ⟨hcondition, hbranches⟩ := List.forall_mem_cons.1 hnames
      obtain ⟨hthen, helse⟩ := List.forall_mem_append.1 hbranches
      have hconditionCode := Expr.lowersAlike hlifts condition hcondition
      have hthenCode := lower_rename hlifts thenBranch hthen
      have helseCode := lower_rename hlifts elseBranch helse
      have hsame := elseBranch.isEmpty_rename f
      cases hempty : elseBranch.isEmpty with
      | true =>
          rw [hempty] at hsame
          rw [rename, lower_ifThen hempty, lower_ifThen hsame]
          simp only [hconditionCode _, hthenCode, Lowered.rename, List.map_append, List.map_cons,
            List.map_nil, Command.rename, id]
      | false =>
          rw [hempty] at hsame
          rw [rename, lower_ifThenElse hempty, lower_ifThenElse hsame]
          simp only [hconditionCode _, hthenCode, helseCode, Lowered.rename, List.map_append,
            List.map_cons, List.map_nil, Command.rename, id]
  | loop condition body =>
      obtain ⟨hcondition, hbody⟩ := List.forall_mem_cons.1 hnames
      have hconditionCode := Expr.lowersAlike hlifts condition hcondition
      have hbodyCode := lower_rename hlifts body hbody
      simp only [rename, lower, hconditionCode _, hbodyCode, Lowered.rename, List.map_append,
        List.map_cons, List.map_nil, Command.rename, id]
  | expression value =>
      have hvalue := Expr.lowersAlike hlifts value (hnames _ (List.mem_singleton_self _))
      simp only [rename, lower, hvalue _, Lowered.rename, id]

theorem lowerAll_rename (hlifts : Lifts f g names) (statements : List Stmt)
    (hnames : RenamesAll f names (actionsAll statements)) (drawn : Names) :
    lowerAll (renameAll f statements) drawn = (lowerAll statements drawn).rename g id := by
  cases statements with
  | nil => rfl
  | cons first rest =>
      obtain ⟨hfirst, hrest⟩ := List.forall_mem_append.1 hnames
      have hfirstCode := lower_rename hlifts first hfirst
      have hrestCode := lowerAll_rename hlifts rest hrest
      simp only [renameAll, lowerAll, hfirstCode, hrestCode, Lowered.rename, List.map_append, id]

end

/-- The code of a renamed program is the renamed code of the program. -/
theorem toIr_rename (hlifts : Lifts f g names) {program : Stmt}
    (hnames : RenamesAll f names program.actions) :
    (program.rename f).toIr = program.toIr.map (Command.rename g) := by
  rw [toIr, toIr, lower_rename hlifts program hnames]
  rfl

end Stmt

/-! ## The variables in lowered code -/

mutual

theorem Expr.delivered_lower {known : String → Prop} (expression : Expr)
    (hvars : ∀ name ∈ expression.vars, known name) (drawn : Names) :
    ReadsKnown known (expression.lower drawn).code ∧
      IsKnown known (expression.lower drawn).code (expression.lower drawn).result := by
  cases expression with
  | int value => exact ⟨readsKnown_nil, fun _ hname => absurd hname List.not_mem_nil⟩
  | bool value => exact ⟨readsKnown_nil, fun _ hname => absurd hname List.not_mem_nil⟩
  | var name => exact ⟨readsKnown_nil, fun other hother => .inl (hvars other hother)⟩
  | unary operator operand =>
      have hoperand := Expr.delivered_lower operand hvars drawn
      rw [Expr.lower_unary]
      exact (Delivers.cons hoperand.1 hoperand.2 (delivers_nil _)).call _
  | binary operator left right =>
      rw [Expr.vars, List.forall_mem_append] at hvars
      have hleft := Expr.delivered_lower left hvars.1 drawn
      have hright := Expr.delivered_lower right hvars.2 (left.lower drawn).names
      rw [Expr.lower_binary]
      exact (Delivers.cons hleft.1 hleft.2
        (.cons hright.1 hright.2 (delivers_nil _))).call _
  | call function arguments => exact (Expr.delivered_lowerAll arguments hvars drawn).call _

theorem Expr.delivered_lowerAll {known : String → Prop} (expressions : List Expr)
    (hvars : ∀ name ∈ Expr.varsAll expressions, known name) (drawn : Names) :
    Delivers known (Expr.lowerAll expressions drawn) := by
  cases expressions with
  | nil => exact delivers_nil drawn
  | cons first rest =>
      rw [Expr.varsAll, List.forall_mem_append] at hvars
      have hfirst := Expr.delivered_lower first hvars.1 drawn
      exact .cons hfirst.1 hfirst.2 (Expr.delivered_lowerAll rest hvars.2 _)

end

namespace Stmt

/-- Code reads variables of its program, and what it assigns itself. -/
theorem readsVars_toIr (program : Stmt) : ReadsKnown (· ∈ program.vars) program.toIr := by
  have hdelivered {action : Action} (haction : action ∈ program.actions) (drawn : Names) :
      ReadsKnown (· ∈ program.vars) (action.value.lower drawn).code ∧
        IsKnown (· ∈ program.vars) (action.value.lower drawn).code
          (action.value.lower drawn).result := by
    apply action.value.delivered_lower
    intro name hname
    exact mem_vars_of_action haction (List.mem_append_right _ hname)
  intro command hmem
  cases program.origin_lower .initial command hmem with
  | computing action haction hpart hcommand =>
      intro name hname
      exact ((hdelivered haction _).1 command hcommand name hname).imp_right
        (mem_assigned_of_subset hpart)
  | storing action haction htarget hpart => exact (hdelivered haction _).2.mono hpart
  | testing haction hpart => exact (hdelivered haction _).2.mono hpart
  | label => exact fun _ hname => absurd hname List.not_mem_nil
  | jump => exact fun _ hname => absurd hname List.not_mem_nil

end Stmt

end WhileCompiler
