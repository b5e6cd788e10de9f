import WhileCompiler.Compiler
import WhileCompiler.Proofs.Results
import WhileCompiler.Proofs.Syntax.DecidedStatements
import WhileCompiler.Proofs.Syntax.Tokens
import WhileCompiler.Proofs.Syntax.Variables

/-!
# What a source can spell

The variables of a program that was parsed are identifiers of its source, and the types that it
declares are the two that have names.
-/

namespace WhileCompiler

/-- Tokens among which there is an identifier. -/
def Mentions (tokens : List Token) (name : String) : Prop :=
  ∃ token ∈ tokens, token.kind = .identifier ∧ token.text = name

@[simp] theorem mentions_cons {token : Token} {tokens : List Token} {name : String} :
    Mentions (token :: tokens) name ↔
      token.kind = .identifier ∧ token.text = name ∨ Mentions tokens name := by
  simp only [Mentions, List.mem_cons, exists_eq_or_imp]

@[simp] theorem mentions_append {left right : List Token} {name : String} :
    Mentions (left ++ right) name ↔ Mentions left name ∨ Mentions right name := by
  simp only [Mentions, List.mem_append, or_and_right, exists_or]

namespace Expr

mutual

theorem mentions_operation {tier : Tier} {tokens : List Token} {value : Expr} :
    SpellsOperation tier tokens value → ∀ name ∈ value.vars, Mentions tokens name
  | .operand hoperand => mentions_operand hoperand
  | .chain _ hleft _ hright => by
      intro name hname
      rcases List.mem_append.1 hname with hname | hname
      · simp [mentions_operation hleft name hname]
      · simp [mentions_operand hright name hname]
  | .comparison hleft _ hright => by
      intro name hname
      rcases List.mem_append.1 hname with hname | hname
      · simp [mentions_operand hleft name hname]
      · simp [mentions_operand hright name hname]

theorem mentions_operand {tier : Tier} {tokens : List Token} {value : Expr} :
    SpellsOperand tier tokens value → ∀ name ∈ value.vars, Mentions tokens name
  | .ofSum hsum => mentions_operation hsum
  | .ofProduct hproduct => mentions_operation hproduct
  | .ofAtom hatom => mentions_atom hatom

theorem mentions_atom {tokens : List Token} {value : Expr} :
    SpellsAtom tokens value → ∀ name ∈ value.vars, Mentions tokens name
  | .parentheses _ hinner _ => fun name hname => by simp [mentions_operation hinner name hname]
  | .unary _ hinner => fun name hname => by simp [mentions_atom hinner name hname]
  | .integer _ _ => fun _ hname => absurd hname List.not_mem_nil
  | .boolean _ => fun _ hname => absurd hname List.not_mem_nil
  | .name hkind => by
      intro name hname
      obtain rfl := List.mem_singleton.1 hname
      exact ⟨_, List.mem_singleton_self _, hkind, rfl⟩
  | .call _ _ hinner _ => by
      intro name hname
      simp [mentions_arguments hinner name hname]

theorem mentions_arguments {tokens : List Token} {values : List Expr} :
    SpellsArguments tokens values → ∀ name ∈ varsAll values, Mentions tokens name
  | .none => fun _ hname => absurd hname List.not_mem_nil
  | .some hsome => mentions_someArguments hsome

theorem mentions_someArguments {tokens : List Token} {values : List Expr} :
    SpellsSomeArguments tokens values → ∀ name ∈ varsAll values, Mentions tokens name
  | .one hargument => by
      intro name hname
      simp only [varsAll, List.append_nil] at hname
      exact mentions_operation hargument name hname
  | .more hargument _ hothers => by
      intro name hname
      rcases List.mem_append.1 hname with hname | hname
      · simp [mentions_operation hargument name hname]
      · simp [mentions_someArguments hothers name hname]

end

end Expr

theorem Ty.of_ofName? {name : String} {type : Ty} (hname : Ty.ofName? name = some type) :
    type = .int ∨ type = .bool := by
  unfold Ty.ofName? at hname
  split at hname
  · exact .inl (Option.some.inj hname).symm
  · exact .inr (Option.some.inj hname).symm
  · cases hname

theorem Ty.ofName?_text {name : String} {type : Ty} (hname : Ty.ofName? name = some type) :
    Ty.ofName? type.text = some type := by
  rcases Ty.of_ofName? hname with rfl | rfl
  · rfl
  · rfl

namespace Stmt

mutual

theorem mentions_spelled {tokens : List Token} {program : Stmt} :
    Spells tokens program → ∀ name ∈ program.vars, Mentions tokens name
  | .block _ hbody _ => by
      intro name hname
      simp [mentions_body hbody name hname]
  | .loop _ htest _ hinner => by
      intro name hname
      rcases List.mem_append.1 hname with hname | hname
      · simp [Expr.mentions_operation htest name hname]
      · simp [mentions_spelled hinner name hname]
  | .ifThen _ htest _ hinner => by
      intro name hname
      simp only [vars, List.append_nil] at hname
      rcases List.mem_append.1 hname with hname | hname
      · simp [Expr.mentions_operation htest name hname]
      · simp [mentions_spelled hinner name hname]
  | .ifThenElse _ htest _ hinner _ hother => by
      intro name hname
      rcases List.mem_append.1 hname with hname | hname
      · rcases List.mem_append.1 hname with hname | hname
        · simp [Expr.mentions_operation htest name hname]
        · simp [mentions_spelled hinner name hname]
      · simp [mentions_spelled hother name hname]
  | .declaration hkind _ _ _ _ hvalue _ => by
      intro name hname
      rcases List.mem_cons.1 hname with rfl | hname
      · simp [hkind]
      · simp [Expr.mentions_operation hvalue name hname]
  | .assignment hkind _ hvalue _ => by
      intro name hname
      rcases List.mem_cons.1 hname with rfl | hname
      · simp [hkind]
      · simp [Expr.mentions_operation hvalue name hname]
  | .expression hvalue _ =>
      fun name hname => by simp [Expr.mentions_operation hvalue name hname]

theorem mentions_body {tokens : List Token} {body : List Stmt} :
    SpellsBody tokens body → ∀ name ∈ varsAll body, Mentions tokens name
  | .nil => fun _ hname => absurd hname List.not_mem_nil
  | .cons hfirst hrest => by
      intro name hname
      rcases List.mem_append.1 hname with hname | hname
      · simp [mentions_spelled hfirst name hname]
      · simp [mentions_body hrest name hname]

end

mutual

/-- What is declared has a type with a name. -/
theorem declared_spelled {tokens : List Token} {program : Stmt} :
    Spells tokens program → ∀ name type value, .declare name type value ∈ program.actions →
      type = .int ∨ type = .bool
  | .block _ hbody _ => declared_body hbody
  | .loop _ _ _ hinner => by
      intro name type value hmem
      rcases List.mem_cons.1 hmem with htest | hmem
      · cases htest
      · exact declared_spelled hinner name type value hmem
  | .ifThen _ _ _ hinner => by
      intro name type value hmem
      simp only [actions, List.append_nil] at hmem
      rcases List.mem_cons.1 hmem with htest | hmem
      · cases htest
      · exact declared_spelled hinner name type value hmem
  | .ifThenElse _ _ _ hinner _ hother => by
      intro name type value hmem
      rcases List.mem_cons.1 hmem with htest | hmem
      · cases htest
      · rcases List.mem_append.1 hmem with hmem | hmem
        · exact declared_spelled hinner name type value hmem
        · exact declared_spelled hother name type value hmem
  | .declaration _ _ _ htype _ _ _ => by
      intro name type value hmem
      obtain ⟨rfl, rfl, rfl⟩ := Action.declare.inj (List.mem_singleton.1 hmem)
      exact Ty.of_ofName? htype
  | .assignment _ _ _ _ => fun _ _ _ hmem => by cases List.mem_singleton.1 hmem
  | .expression _ _ => fun _ _ _ hmem => by cases List.mem_singleton.1 hmem

theorem declared_body {tokens : List Token} {body : List Stmt} :
    SpellsBody tokens body → ∀ name type value, .declare name type value ∈ actionsAll body →
      type = .int ∨ type = .bool
  | .nil => fun _ _ _ hmem => absurd hmem List.not_mem_nil
  | .cons hfirst hrest => fun name type value hmem =>
      (List.mem_append.1 hmem).elim (declared_spelled hfirst name type value)
        (declared_body hrest name type value)

end

/-- A program that a source can spell. -/
structure IsSpelled (program : Stmt) : Prop where
  names : ∀ name ∈ program.vars, Token.isName name.toList = true
  declared : ∀ name type value, .declare name type value ∈ program.actions →
    type = .int ∨ type = .bool

/-- A source that is parsed can be read as tokens, which are parsed. -/
theorem exists_tokens_of_parse {source : String} {program : Stmt}
    (hparse : Compiler.parse source = .ok program) :
    ∃ tokens, Token.ofSource source = .ok tokens ∧ ofTokens tokens = .ok program := by
  obtain ⟨tokens, htokens, hprogram⟩ := bind_eq_ok.1 hparse
  exact ⟨tokens, mapError_eq_ok.1 htokens, mapError_eq_ok.1 hprogram⟩

theorem isSpelled_of_parse {source : String} {program : Stmt}
    (hparse : Compiler.parse source = .ok program) : program.IsSpelled := by
  obtain ⟨tokens, htokens, hprogram⟩ := exists_tokens_of_parse hparse
  have hspells := spells_of_ofTokens hprogram
  refine ⟨fun name hname => ?_, declared_spelled hspells⟩
  obtain ⟨token, hmem, hkind, rfl⟩ := mentions_spelled hspells name hname
  exact Token.isName_of_source htokens (List.takeWhile_subset _ hmem) hkind

end Stmt

end WhileCompiler
