import Mathlib
import WhileCompiler.Proofs.Syntax.AcceptedExpressions
import WhileCompiler.Proofs.Syntax.NearestElse
import WhileCompiler.Stmt.Parser

/-!
# Every statement of the grammar is parsed

The parser that meets tokens which spell a statement takes exactly these, if each `else` among them
belongs to the nearest `if` and none follows that an open `if` would take as its own.
-/

namespace WhileCompiler

open Parsing

namespace Expr

/-- Whether a token of the kind can stand in an expression. -/
def uses : Token.Kind → Bool
  | .leftBrace | .rightBrace | .semicolon | .colon | .assign | .ifWord | .thenWord | .elseWord
  | .whileWord | .doWord | .endOfInput => false
  | _ => true

theorem uses_of_includes {tier : Tier} {kind : Token.Kind} (hkind : tier.includes kind = true) :
    uses kind = true := by
  have hall : ∀ kind ∈ Token.Kind.all, tier.includes kind = true → uses kind = true := by
    cases tier <;> decide
  exact hall kind (Token.Kind.mem_all kind) hkind

mutual

theorem uses_of_operation {tier : Tier} {tokens : List Token} {value : Expr} :
    SpellsOperation tier tokens value → ∀ token ∈ tokens, uses token.kind = true
  | .operand hoperand => uses_of_operand hoperand
  | .chain _ hleft hincludes hright =>
      List.forall_mem_append.2 ⟨uses_of_operation hleft,
        List.forall_mem_cons.2 ⟨uses_of_includes hincludes, uses_of_operand hright⟩⟩
  | .comparison hleft hincludes hright =>
      List.forall_mem_append.2 ⟨uses_of_operand hleft,
        List.forall_mem_cons.2 ⟨uses_of_includes hincludes, uses_of_operand hright⟩⟩

theorem uses_of_operand {tier : Tier} {tokens : List Token} {value : Expr} :
    SpellsOperand tier tokens value → ∀ token ∈ tokens, uses token.kind = true
  | .ofSum hsum => uses_of_operation hsum
  | .ofProduct hproduct => uses_of_operation hproduct
  | .ofAtom hatom => uses_of_atom hatom

theorem uses_of_atom {tokens : List Token} {value : Expr} :
    SpellsAtom tokens value → ∀ token ∈ tokens, uses token.kind = true
  | .parentheses hopening hinner hclosing => by
      simpa [hopening, hclosing, uses, or_imp, forall_and] using uses_of_operation hinner
  | .unary hkind hinner => by
      rcases hkind with hkind | hkind <;>
        simpa [hkind, uses] using uses_of_atom hinner
  | .integer hkind _ => by simp [hkind, uses]
  | .boolean hkind => by simp [hkind, uses]
  | .name hkind => by simp [hkind, uses]
  | .call hkind hopening hinner hclosing => by
      simpa [hkind, hopening, hclosing, uses, or_imp, forall_and] using uses_of_arguments hinner

theorem uses_of_arguments {tokens : List Token} {values : List Expr} :
    SpellsArguments tokens values → ∀ token ∈ tokens, uses token.kind = true
  | .none => by simp
  | .some hsome => uses_of_someArguments hsome

theorem uses_of_someArguments {tokens : List Token} {values : List Expr} :
    SpellsSomeArguments tokens values → ∀ token ∈ tokens, uses token.kind = true
  | .one hargument => uses_of_operation hargument
  | .more hargument hcomma hothers =>
      List.forall_mem_append.2 ⟨uses_of_operation hargument,
        List.forall_mem_cons.2 ⟨by simp [hcomma, uses], uses_of_someArguments hothers⟩⟩

end

end Expr

namespace Stmt

section

variable {finish : Token} {tokens middle rest : List Token} {condition : Expr}
  {inner thenBranch elseBranch : Stmt}

/-! ## One step of each parser -/

theorem takes_expressionBefore (finish : Token) {kind : Token.Kind} {closing : Token}
    {value : Expr} (hspells : Expr.Spells tokens value) (hclosing : closing.kind = kind)
    (hkind : Expr.Tier.comparison.prolongs kind = false) (rest : List Token) :
    Takes (expressionBefore finish kind) (tokens ++ closing :: rest) value rest := by
  obtain ⟨hmiddle, hvalue⟩ := (Expr.accepts_of_spells finish hspells).taken (closing :: rest)
    (clear_cons (hclosing ▸ hkind))
  obtain ⟨hrest, hexpect⟩ := takes_expect finish rest hclosing
  refine ⟨Nat.lt_trans hrest hmiddle, ?_⟩
  rw [expressionBefore, hvalue]
  simp only [hexpect]
  rfl

theorem takes_block {opening : Token} {statements : List Stmt}
    (hopening : opening.kind = .leftBrace) (hbody : Takes (body finish) tokens statements rest) :
    Takes (statement finish) (opening :: tokens) (.block statements) rest := by
  obtain ⟨hrest, hbody⟩ := hbody
  refine ⟨Nat.lt_succ_of_lt hrest, ?_⟩
  rw [statement]
  simp only [hopening, hbody]
  rfl

theorem takes_loop {word : Token} (hword : word.kind = .whileWord)
    (hcondition : Takes (expressionBefore finish .doWord) tokens condition middle)
    (hbody : Takes (statement finish) middle inner rest) :
    Takes (statement finish) (word :: tokens) (.loop condition inner) rest := by
  obtain ⟨hmiddle, hcondition⟩ := hcondition
  obtain ⟨hrest, hbody⟩ := hbody
  refine ⟨Nat.lt_succ_of_lt (Nat.lt_trans hrest hmiddle), ?_⟩
  rw [statement]
  simp only [hword, hcondition, hbody]
  rfl

theorem takes_ifThen {word : Token} (hword : word.kind = .ifWord)
    (hcondition : Takes (expressionBefore finish .thenWord) tokens condition middle)
    (hthen : Takes (statement finish) middle thenBranch rest)
    (hrest : Clear (· = .elseWord) rest) :
    Takes (statement finish) (word :: tokens) (.conditional condition thenBranch .empty) rest := by
  obtain ⟨hmiddle, hcondition⟩ := hcondition
  obtain ⟨hshorter, hthen⟩ := hthen
  refine ⟨Nat.lt_succ_of_lt (Nat.lt_trans hshorter hmiddle), ?_⟩
  rw [statement]
  simp only [hword, hcondition, hthen, accept?_of_clear hrest]
  rfl

theorem takes_ifThenElse {word elseWord : Token} {other : List Token} (hword : word.kind = .ifWord)
    (hcondition : Takes (expressionBefore finish .thenWord) tokens condition middle)
    (hthen : Takes (statement finish) middle thenBranch (elseWord :: other))
    (helseWord : elseWord.kind = .elseWord)
    (helse : Takes (statement finish) other elseBranch rest) :
    Takes (statement finish) (word :: tokens) (.conditional condition thenBranch elseBranch)
      rest := by
  obtain ⟨hmiddle, hcondition⟩ := hcondition
  obtain ⟨hother, hthen⟩ := hthen
  obtain ⟨hrest, helse⟩ := helse
  have hlength := Nat.lt_trans (Nat.lt_trans (Nat.lt_succ_of_lt hrest) hother) hmiddle
  refine ⟨Nat.lt_succ_of_lt hlength, ?_⟩
  rw [statement]
  simp only [hword, hcondition, hthen, accept?_cons other helseWord, Parsed.before, helse]
  rfl

theorem takes_declaration {name colon typeName assign : Token} {type : Ty} {value : Expr}
    (hname : name.kind = .identifier) (hcolon : colon.kind = .colon)
    (htypeName : typeName.kind = .identifier) (htype : Ty.ofName? typeName.text = some type)
    (hassign : assign.kind = .assign)
    (hvalue : Takes (expressionBefore finish .semicolon) tokens value rest) :
    Takes (statement finish) (name :: colon :: typeName :: assign :: tokens)
      (.declaration name.text type value) rest := by
  obtain ⟨hrest, hvalue⟩ := hvalue
  obtain ⟨_, hexpectName⟩ := takes_expect finish (assign :: tokens) htypeName
  obtain ⟨_, hexpectAssign⟩ := takes_expect finish tokens hassign
  have hlength := Nat.lt_succ_of_lt (Nat.lt_succ_of_lt hrest)
  refine ⟨Nat.lt_succ_of_lt (Nat.lt_succ_of_lt hlength), ?_⟩
  rw [statement]
  simp only [hname, accept?_cons _ hcolon, Parsed.before, declarationRest, Stmt.typeName,
    hexpectName, htype, Parsed.map, hexpectAssign, hvalue]
  rfl

theorem takes_assignment {name assign : Token} {value : Expr} (hname : name.kind = .identifier)
    (hassign : assign.kind = .assign)
    (hvalue : Takes (expressionBefore finish .semicolon) tokens value rest) :
    Takes (statement finish) (name :: assign :: tokens) (.assignment name.text value) rest := by
  obtain ⟨hrest, hvalue⟩ := hvalue
  have hcolon : Clear (· = .colon) (assign :: tokens) := clear_cons (by simp [hassign])
  refine ⟨Nat.lt_succ_of_lt (Nat.lt_succ_of_lt hrest), ?_⟩
  rw [statement]
  simp only [hname, accept?_of_clear hcolon, accept?_cons tokens hassign, Parsed.before, hvalue]
  rfl

/-- What begins like an expression, and does not go on like a declaration or an assignment, is a
statement that evaluates the expression. -/
theorem takes_expression {first : Token} {value : Expr} (hfirst : Expr.begins first.kind = true)
    (hcolon : Clear (· = .colon) tokens) (hassign : Clear (· = .assign) tokens)
    (hvalue : Takes (expressionBefore finish .semicolon) (first :: tokens) value rest) :
    Takes (statement finish) (first :: tokens) (.expression value) rest := by
  obtain ⟨hrest, hvalue⟩ := hvalue
  refine ⟨hrest, ?_⟩
  rw [statement]
  split
  · next hkind => rw [hkind] at hfirst; cases hfirst
  · next hkind => rw [hkind] at hfirst; cases hfirst
  · next hkind => rw [hkind] at hfirst; cases hfirst
  · simp only [accept?_of_clear hcolon, accept?_of_clear hassign, hvalue]
    rfl
  · simp only [hvalue]
    rfl

theorem takes_bodyEnd {closing : Token} (hclosing : closing.kind = .rightBrace) :
    Takes (body finish) (closing :: rest) [] rest := by
  refine ⟨Nat.lt_succ_self _, ?_⟩
  rw [body, accept?_cons rest hclosing]
  rfl

theorem takes_bodyMore {first : Stmt} {others : List Stmt}
    (hbegins : Clear (· = .rightBrace) tokens)
    (hfirst : Takes (statement finish) tokens first middle)
    (hothers : Takes (body finish) middle others rest) :
    Takes (body finish) tokens (first :: others) rest := by
  obtain ⟨hmiddle, hfirst⟩ := hfirst
  obtain ⟨hrest, hothers⟩ := hothers
  refine ⟨Nat.lt_trans hrest hmiddle, ?_⟩
  rw [body, accept?_of_clear hbegins]
  simp only [hfirst, hothers]
  rfl

end

/-! ## What the grammar derives -/

/-- Whether a statement can begin with a token of the kind. -/
def begins (kind : Token.Kind) : Bool :=
  Expr.begins kind || kind = .leftBrace || kind = .whileWord || kind = .ifWord

theorem exists_cons_of_spells {tokens : List Token} {program : Stmt}
    (hspells : Spells tokens program) :
    ∃ first others, tokens = first :: others ∧ begins first.kind = true := by
  cases hspells with
  | block hkind _ _ => exact ⟨_, _, rfl, by rw [hkind]; rfl⟩
  | loop hkind _ _ _ => exact ⟨_, _, rfl, by rw [hkind]; rfl⟩
  | ifThen hkind _ _ _ => exact ⟨_, _, rfl, by rw [hkind]; rfl⟩
  | ifThenElse hkind _ _ _ _ _ => exact ⟨_, _, rfl, by rw [hkind]; rfl⟩
  | declaration hkind _ _ _ _ _ _ => exact ⟨_, _, rfl, by rw [hkind]; rfl⟩
  | assignment hkind _ _ _ => exact ⟨_, _, rfl, by rw [hkind]; rfl⟩
  | expression hvalue _ =>
      obtain ⟨first, others, rfl, hfirst⟩ := Expr.exists_cons_of_operation hvalue
      exact ⟨first, _, rfl, by simp [begins, hfirst]⟩

theorem clear_of_begins {kind : Token.Kind} (hkind : begins kind = false) {tokens rest : List Token}
    {program : Stmt} (hspells : Spells tokens program) : Clear (· = kind) (tokens ++ rest) := by
  obtain ⟨first, others, rfl, hfirst⟩ := exists_cons_of_spells hspells
  exact clear_cons_of_kinds hfirst hkind

theorem clear_of_body {kind : Token.Kind} (hkind : begins kind = false) {closing : Token}
    (hclosing : closing.kind ≠ kind) {tokens rest : List Token} {statements : List Stmt}
    (hspells : SpellsBody tokens statements) : Clear (· = kind) (tokens ++ closing :: rest) := by
  cases hspells with
  | nil => exact clear_cons (decide_eq_false hclosing)
  | cons hfirst hrest =>
      rw [List.append_assoc]
      exact clear_of_begins hkind hfirst

/-- No token of this kind stands in an expression, nor closes one. -/
theorem clear_of_uses {kind : Token.Kind} (hkind : Expr.uses kind = false) {closing : Token}
    (hclosing : closing.kind ≠ kind) {tokens rest : List Token}
    (huses : ∀ token ∈ tokens, Expr.uses token.kind = true) :
    Clear (· = kind) (tokens ++ closing :: rest) := by
  cases tokens with
  | nil => exact clear_cons (decide_eq_false hclosing)
  | cons first others => exact clear_cons_of_kinds (huses first List.mem_cons_self) hkind

theorem takes_of_expression {finish semicolon : Token} {tokens : List Token} {value : Expr}
    (hvalue : Expr.Spells tokens value) (hsemicolon : semicolon.kind = .semicolon)
    (rest : List Token) :
    Takes (statement finish) (tokens ++ semicolon :: rest) (.expression value) rest := by
  have htaken := takes_expressionBefore finish hvalue hsemicolon rfl rest
  obtain ⟨first, others, rfl, hfirst⟩ := Expr.exists_cons_of_operation hvalue
  have huses : ∀ token ∈ others, Expr.uses token.kind = true := fun token hmem =>
    Expr.uses_of_operation hvalue token (List.mem_cons_of_mem first hmem)
  refine takes_expression hfirst ?_ ?_ htaken
  · exact clear_of_uses rfl (by simp [hsemicolon]) huses
  · exact clear_of_uses rfl (by simp [hsemicolon]) huses

mutual

/-- Tokens that spell a statement are taken wherever no `else` follows that would go on with it. -/
theorem takes_of_spells (finish : Token) {tokens : List Token} {program : Stmt} :
    Spells tokens program → program.nearestElse = true → ∀ rest,
      (program.endsOpen = true → Clear (· = .elseWord) rest) →
        Takes (statement finish) (tokens ++ rest) program rest
  | .block hopening hbody hclosing => fun hnearest rest _ => by
      rw [List.append_assoc, List.cons_append]
      exact takes_block hopening (takes_of_body finish hbody hnearest hclosing rest)
  | .loop hword htest hdo hinner => fun hnearest rest hrest => by
      rw [List.append_assoc, List.cons_append, List.cons_append]
      have hbody := takes_of_spells finish hinner hnearest rest hrest
      exact takes_loop hword (takes_expressionBefore finish htest hdo rfl _) hbody
  | .ifThen hword htest hthen hinner => fun hnearest rest hrest => by
      rw [List.append_assoc, List.cons_append, List.cons_append]
      have hclear := hrest rfl
      have hbranch := takes_of_spells finish hinner (nearestElse_ifThen.symm.trans hnearest) rest
        fun _ => hclear
      exact takes_ifThen hword (takes_expressionBefore finish htest hthen rfl _) hbranch hclear
  | .ifThenElse hword htest hthen hinner helseWord hother => fun hnearest rest hrest => by
      have hempty := isEmpty_of_spells hother
      rw [nearestElse_ifThenElse hempty, Bool.and_eq_true, Bool.and_eq_true] at hnearest
      rw [endsOpen, hempty, Bool.false_or] at hrest
      rw [List.append_assoc, List.append_assoc, List.cons_append, List.cons_append,
        List.cons_append]
      have hbranch (behind : List Token) := takes_of_spells finish hinner hnearest.1.1 behind
        fun hopen => by simp [hopen] at hnearest
      have helse := takes_of_spells finish hother hnearest.1.2 rest hrest
      exact takes_ifThenElse hword (takes_expressionBefore finish htest hthen rfl _) (hbranch _)
        helseWord helse
  | .declaration hname hcolon htypeName htype hassign hvalue hsemicolon => fun _ rest _ => by
      rw [List.append_assoc]
      exact takes_declaration hname hcolon htypeName htype hassign
        (takes_expressionBefore finish hvalue hsemicolon rfl rest)
  | .assignment hname hassign hvalue hsemicolon => fun _ rest _ => by
      rw [List.append_assoc]
      exact takes_assignment hname hassign
        (takes_expressionBefore finish hvalue hsemicolon rfl rest)
  | .expression hvalue hsemicolon => fun _ rest _ => by
      rw [List.append_assoc]
      exact takes_of_expression hvalue hsemicolon rest

theorem takes_of_body (finish : Token) {tokens : List Token} {statements : List Stmt}
    {closing : Token} : SpellsBody tokens statements → allNearestElse statements = true →
      closing.kind = .rightBrace → ∀ rest,
        Takes (body finish) (tokens ++ closing :: rest) statements rest
  | .nil => fun _ hclosing _ => takes_bodyEnd hclosing
  | .cons hfirst hothers => fun hnearest hclosing rest => by
      rw [allNearestElse, Bool.and_eq_true] at hnearest
      rw [List.append_assoc]
      refine takes_bodyMore (clear_of_begins rfl hfirst) ?_
        (takes_of_body finish hothers hnearest.2 hclosing rest)
      exact takes_of_spells finish hfirst hnearest.1 _
        fun _ => clear_of_body rfl (by simp [hclosing]) hothers

end

end Stmt

end WhileCompiler
