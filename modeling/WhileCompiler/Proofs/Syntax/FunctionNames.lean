import WhileCompiler.Proofs.Syntax.SpelledPrograms
import WhileCompiler.Proofs.Syntax.WrittenExpressions
import WhileCompiler.Stmt.Renaming

/-!
# The names of functions in a program

Which names a program looks up in order to call them.  Where such a name is an identifier, the
source mentions it; the other ones are those of operators.  A renaming of variables leaves all of
them as they are.
-/

namespace WhileCompiler

open Token Text

namespace Expr

mutual

/-- The functions of an expression, by the names under which they are looked up. -/
def functions : Expr → List String
  | .int _ | .bool _ | .var _ => []
  | .unary operator operand => unaryName operator :: operand.functions
  | .binary operator left right => operator :: (left.functions ++ right.functions)
  | .call function arguments => function :: functionsAll arguments

def functionsAll : List Expr → List String
  | [] => []
  | first :: rest => first.functions ++ functionsAll rest

end

theorem not_isIdentifier_unaryName : ∀ operator ∈ unaryOperators,
    isIdentifier (unaryName operator).toList = false := by
  decide

theorem not_isIdentifier_binary : ∀ operator ∈ binaryOperators,
    isIdentifier operator.toList = false := by
  decide

/-- Tokens that mention each of the names which is an identifier. -/
def MentionsNames (tokens : List Token) (names : List String) : Prop :=
  ∀ name ∈ names, isIdentifier name.toList = true → Mentions tokens name

theorem mentionsNames_nil (tokens : List Token) : MentionsNames tokens [] :=
  fun _ hname => absurd hname List.not_mem_nil

theorem MentionsNames.append {tokens left right : List Token} {first second : List String}
    (hleft : MentionsNames left first) (hright : MentionsNames right second)
    (htokens : left ++ right ⊆ tokens) : MentionsNames tokens (first ++ second) := by
  intro name hname hidentifier
  rcases List.mem_append.1 hname with hname | hname
  · obtain ⟨token, hmem, htoken⟩ := hleft name hname hidentifier
    exact ⟨token, htokens (List.mem_append_left _ hmem), htoken⟩
  · obtain ⟨token, hmem, htoken⟩ := hright name hname hidentifier
    exact ⟨token, htokens (List.mem_append_right _ hmem), htoken⟩

theorem MentionsNames.mono {tokens inner : List Token} {names : List String}
    (hinner : MentionsNames inner names) (htokens : inner ⊆ tokens) :
    MentionsNames tokens names := by
  intro name hname hidentifier
  obtain ⟨token, hmem, htoken⟩ := hinner name hname hidentifier
  exact ⟨token, htokens hmem, htoken⟩

/-- A name that is no identifier need not be mentioned. -/
theorem MentionsNames.cons {tokens : List Token} {name : String} {names : List String}
    (hnames : MentionsNames tokens names) (hname : isIdentifier name.toList = false) :
    MentionsNames tokens (name :: names) := by
  intro other hother hidentifier
  rcases List.mem_cons.1 hother with rfl | hother
  · rw [hname] at hidentifier
    cases hidentifier
  · exact hnames other hother hidentifier

theorem mentionsNames_binary {before after : List Token} {operator : Token} {tier : Tier}
    {left right : Expr} (htier : tier.includes operator.kind = true)
    (hspelled : Spelled (before ++ operator :: after))
    (hleft : Spelled before → MentionsNames before left.functions)
    (hright : Spelled after → MentionsNames after right.functions) :
    MentionsNames (before ++ operator :: after) (binary operator.text left right).functions := by
  rw [spelled_append, spelled_cons] at hspelled
  have hoperator := not_isIdentifier_binary _ (mem_binaryOperators hspelled.2.1 htier)
  have hoperands := (hleft hspelled.1).append (hright hspelled.2.2)
    (List.append_subset.2 ⟨List.subset_append_left before (operator :: after),
      List.subset_append_of_subset_right before (List.subset_cons_self operator after)⟩)
  exact hoperands.cons hoperator

mutual

theorem mentionsNames_of_operation {tier : Tier} {tokens : List Token} {value : Expr} :
    SpellsOperation tier tokens value → Spelled tokens → MentionsNames tokens value.functions
  | .operand hoperand => mentionsNames_of_operand hoperand
  | .chain _ hleft htier hright => fun htokens =>
      mentionsNames_binary htier htokens (mentionsNames_of_operation hleft)
        (mentionsNames_of_operand hright)
  | .comparison hleft htier hright => fun htokens =>
      mentionsNames_binary htier htokens (mentionsNames_of_operand hleft)
        (mentionsNames_of_operand hright)

theorem mentionsNames_of_operand {tier : Tier} {tokens : List Token} {value : Expr} :
    SpellsOperand tier tokens value → Spelled tokens → MentionsNames tokens value.functions
  | .ofSum hsum => mentionsNames_of_operation hsum
  | .ofProduct hproduct => mentionsNames_of_operation hproduct
  | .ofAtom hatom => mentionsNames_of_atom hatom

theorem mentionsNames_of_atom {tokens : List Token} {value : Expr} :
    SpellsAtom tokens value → Spelled tokens → MentionsNames tokens value.functions
  | .parentheses _ hinner _ => by
      intro htokens
      rw [spelled_append, spelled_cons] at htokens
      exact (mentionsNames_of_operation hinner htokens.1.2).mono fun _ h => by simp [h]
  | .unary hkind hinner => by
      intro htokens
      rw [spelled_cons] at htokens
      have hoperator := not_isIdentifier_unaryName _ (mem_unaryOperators htokens.1 hkind)
      have hoperand := mentionsNames_of_atom hinner htokens.2
      exact (hoperand.mono (List.subset_cons_self _ _)).cons hoperator
  | .integer _ _ => fun _ => mentionsNames_nil _
  | .boolean _ => fun _ => mentionsNames_nil _
  | .name _ => fun _ => mentionsNames_nil _
  | .call hkind _ hinner _ => by
      intro htokens name hname hidentifier
      rw [spelled_append, spelled_cons, spelled_cons] at htokens
      rcases List.mem_cons.1 hname with rfl | hname
      · simp [hkind]
      · simp [mentionsNames_of_arguments hinner htokens.1.2.2 name hname hidentifier]

theorem mentionsNames_of_arguments {tokens : List Token} {values : List Expr} :
    SpellsArguments tokens values → Spelled tokens → MentionsNames tokens (functionsAll values)
  | .none => fun _ => mentionsNames_nil _
  | .some hsome => mentionsNames_of_someArguments hsome

theorem mentionsNames_of_someArguments {tokens : List Token} {values : List Expr} :
    SpellsSomeArguments tokens values → Spelled tokens →
      MentionsNames tokens (functionsAll values)
  | .one hargument => by
      intro htokens
      rw [functionsAll, functionsAll, List.append_nil]
      exact mentionsNames_of_operation hargument htokens
  | .more hargument _ hothers => by
      intro htokens
      rw [spelled_append, spelled_cons] at htokens
      exact (mentionsNames_of_operation hargument htokens.1).append
        (mentionsNames_of_someArguments hothers htokens.2.2) (by simp)

end

end Expr

namespace Stmt

mutual

/-- The expressions of a program are spelled by tokens of the program. -/
theorem exists_spelled_action {tokens : List Token} {program : Stmt} :
    Spells tokens program → ∀ action ∈ program.actions,
      ∃ inner, inner ⊆ tokens ∧ Expr.Spells inner action.value
  | .block _ hbody _ => by
      intro action haction
      obtain ⟨inner, hsubset, hspells⟩ := exists_spelled_actionAll hbody action haction
      exact ⟨inner, fun _ h => by simp [hsubset h], hspells⟩
  | .loop _ htest _ hinner => by
      intro action haction
      rcases List.mem_cons.1 haction with rfl | haction
      · exact ⟨_, by simp, htest⟩
      · obtain ⟨inner, hsubset, hspells⟩ := exists_spelled_action hinner action haction
        exact ⟨inner, fun _ h => by simp [hsubset h], hspells⟩
  | .ifThen _ htest _ hinner => by
      intro action haction
      simp only [actions, List.append_nil] at haction
      rcases List.mem_cons.1 haction with rfl | haction
      · exact ⟨_, by simp, htest⟩
      · obtain ⟨inner, hsubset, hspells⟩ := exists_spelled_action hinner action haction
        exact ⟨inner, fun _ h => by simp [hsubset h], hspells⟩
  | .ifThenElse _ htest _ hinner _ hother => by
      intro action haction
      rcases List.mem_cons.1 haction with rfl | haction
      · exact ⟨_, by simp, htest⟩
      · rcases List.mem_append.1 haction with haction | haction
        · obtain ⟨inner, hsubset, hspells⟩ := exists_spelled_action hinner action haction
          exact ⟨inner, fun _ h => by simp [hsubset h], hspells⟩
        · obtain ⟨inner, hsubset, hspells⟩ := exists_spelled_action hother action haction
          exact ⟨inner, fun _ h => by simp [hsubset h], hspells⟩
  | .declaration _ _ _ _ _ hvalue _ => by
      intro action haction
      obtain rfl := List.mem_singleton.1 haction
      exact ⟨_, fun _ h => by simp [h], hvalue⟩
  | .assignment _ _ hvalue _ => by
      intro action haction
      obtain rfl := List.mem_singleton.1 haction
      exact ⟨_, fun _ h => by simp [h], hvalue⟩
  | .expression hvalue _ => by
      intro action haction
      obtain rfl := List.mem_singleton.1 haction
      exact ⟨_, by simp, hvalue⟩

theorem exists_spelled_actionAll {tokens : List Token} {body : List Stmt} :
    SpellsBody tokens body → ∀ action ∈ actionsAll body,
      ∃ inner, inner ⊆ tokens ∧ Expr.Spells inner action.value
  | .nil => fun _ haction => absurd haction List.not_mem_nil
  | .cons hfirst hrest => by
      intro action haction
      rcases List.mem_append.1 haction with haction | haction
      · obtain ⟨inner, hsubset, hspells⟩ := exists_spelled_action hfirst action haction
        exact ⟨inner, List.subset_append_of_subset_left _ hsubset, hspells⟩
      · obtain ⟨inner, hsubset, hspells⟩ := exists_spelled_actionAll hrest action haction
        exact ⟨inner, List.subset_append_of_subset_right _ hsubset, hspells⟩

end

/-- A program mentions each identifier that it calls a function by. -/
theorem mentionsNames_of_spells {tokens : List Token} {program : Stmt}
    (htokens : Spells tokens program) (hspelled : Expr.Spelled tokens) {action : Action}
    (haction : action ∈ program.actions) :
    Expr.MentionsNames tokens action.value.functions := by
  obtain ⟨inner, hsubset, hvalue⟩ := exists_spelled_action htokens action haction
  have hinner : Expr.Spelled inner := fun token hmem => hspelled token (hsubset hmem)
  exact (Expr.mentionsNames_of_operation hvalue hinner).mono hsubset

/-- A source mentions every variable of its program, and every function that an identifier names. -/
theorem exists_mentions_of_parse {source : String} {program : Stmt}
    (hparse : Compiler.parse source = .ok program) :
    ∃ tokens, ofSource source = .ok tokens ∧ ∀ action ∈ program.actions,
      (∀ name ∈ action.vars, Mentions tokens name) ∧
        Expr.MentionsNames tokens action.value.functions := by
  obtain ⟨tokens, hsource, hprogram⟩ := exists_tokens_of_parse hparse
  have hspells := spells_of_ofTokens hprogram
  have hspelled : Expr.Spelled (tokens.takeWhile fun token => token.kind ≠ .endOfInput) :=
    fun token hmem => spells_scan hsource token (List.takeWhile_subset _ hmem)
  refine ⟨tokens, hsource, fun action haction => ⟨fun name hname => ?_, ?_⟩⟩
  · obtain ⟨token, hmem, htoken⟩ :=
      mentions_spelled hspells name (mem_vars_of_action haction hname)
    exact ⟨token, List.takeWhile_subset _ hmem, htoken⟩
  · exact (mentionsNames_of_spells hspells hspelled haction).mono (List.takeWhile_subset _)

end Stmt

/-! ## Renaming -/

/-- A renaming applies to variables that are among some names, and leaves the functions, which are
among these names too, as they are. -/
structure Renames (f : String → String) (names : Set String) (vars functions : List String) :
    Prop where
  vars : ∀ name ∈ vars, name ∈ names
  functions : ∀ name ∈ functions, name ∈ names ∧ f name = name

section

variable {f : String → String} {names : Set String} {vars functions : List String}

theorem renames_append {others otherFunctions : List String} :
    Renames f names (vars ++ others) (functions ++ otherFunctions) ↔
      Renames f names vars functions ∧ Renames f names others otherFunctions := by
  constructor
  · rintro ⟨hvars, hfunctions⟩
    rw [List.forall_mem_append] at hvars hfunctions
    exact ⟨⟨hvars.1, hfunctions.1⟩, ⟨hvars.2, hfunctions.2⟩⟩
  · rintro ⟨hleft, hright⟩
    exact ⟨List.forall_mem_append.2 ⟨hleft.vars, hright.vars⟩,
      List.forall_mem_append.2 ⟨hleft.functions, hright.functions⟩⟩

theorem renames_cons_var {name : String} :
    Renames f names (name :: vars) functions ↔ name ∈ names ∧ Renames f names vars functions := by
  constructor
  · rintro ⟨hvars, hfunctions⟩
    rw [List.forall_mem_cons] at hvars
    exact ⟨hvars.1, hvars.2, hfunctions⟩
  · rintro ⟨hname, hvars, hfunctions⟩
    exact ⟨List.forall_mem_cons.2 ⟨hname, hvars⟩, hfunctions⟩

theorem renames_cons_function {name : String} :
    Renames f names vars (name :: functions) ↔
      (name ∈ names ∧ f name = name) ∧ Renames f names vars functions := by
  constructor
  · rintro ⟨hvars, hfunctions⟩
    rw [List.forall_mem_cons] at hfunctions
    exact ⟨hfunctions.1, hvars, hfunctions.2⟩
  · rintro ⟨hname, hvars, hfunctions⟩
    exact ⟨hvars, List.forall_mem_cons.2 ⟨hname, hfunctions⟩⟩

end

/-- A renaming applies to all that is done with expressions. -/
def Stmt.RenamesAll (f : String → String) (names : Set String) (actions : List Action) : Prop :=
  ∀ action ∈ actions, Renames f names action.vars action.value.functions

theorem Stmt.isEmpty_rename (f : String → String) (statement : Stmt) :
    (statement.rename f).isEmpty = statement.isEmpty := by
  cases statement <;> rfl

mutual

theorem Expr.rename_id (expression : Expr) : expression.rename id = expression := by
  cases expression with
  | int value => rfl
  | bool value => rfl
  | var name => rfl
  | unary operator operand => rw [Expr.rename, Expr.rename_id operand]
  | binary operator left right => rw [Expr.rename, Expr.rename_id left, Expr.rename_id right]
  | call function arguments => rw [Expr.rename, Expr.renameAll_id arguments, id]

theorem Expr.renameAll_id (expressions : List Expr) :
    Expr.renameAll id expressions = expressions := by
  cases expressions with
  | nil => rfl
  | cons first rest => rw [Expr.renameAll, Expr.rename_id first, Expr.renameAll_id rest]

end

mutual

theorem Stmt.rename_id (statement : Stmt) : statement.rename id = statement := by
  cases statement with
  | empty => rfl
  | block body => rw [Stmt.rename, Stmt.renameAll_id body]
  | declaration name type initial => rw [Stmt.rename, Expr.rename_id, id]
  | assignment name value => rw [Stmt.rename, Expr.rename_id, id]
  | conditional condition thenBranch elseBranch =>
      rw [Stmt.rename, Expr.rename_id, Stmt.rename_id thenBranch, Stmt.rename_id elseBranch]
  | loop condition body => rw [Stmt.rename, Expr.rename_id, Stmt.rename_id body]
  | expression value => rw [Stmt.rename, Expr.rename_id]

theorem Stmt.renameAll_id (statements : List Stmt) : Stmt.renameAll id statements = statements := by
  cases statements with
  | nil => rfl
  | cons first rest => rw [Stmt.renameAll, Stmt.rename_id first, Stmt.renameAll_id rest]

end

end WhileCompiler
