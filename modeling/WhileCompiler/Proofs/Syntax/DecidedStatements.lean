import WhileCompiler.Proofs.Syntax.AcceptedStatements
import WhileCompiler.Proofs.Syntax.DecidedExpressions

/-!
# How statements are parsed

The parsers of statements, taken apart into steps that each decide by the next token how to go on.
Every statement that was begun can be completed, since what is missing may always be the shortest
phrase of its kind.
-/

namespace WhileCompiler

open Parsing Reader

namespace Stmt

/-! ## The parsers as readers -/

def readExpressionBefore (kind : Token.Kind) : Reader Expr :=
  ofParser fun finish => expressionBefore finish kind

def readTypeName : Reader Ty :=
  ofParser typeName

def readDeclarationRest (name : String) : Reader Stmt :=
  ofParser fun finish => declarationRest finish name

def readStatement : Reader Stmt :=
  ofParser statement

def readBody : Reader (List Stmt) :=
  ofParser body

theorem readExpressionBefore_eq (kind : Token.Kind) :
    readExpressionBefore kind = (Expr.readOperation .comparison).andThen fun value =>
      (single kind).andThen fun _ => done value := by
  funext finish tokens
  simp only [readExpressionBefore, Expr.readOperation, single, ofParser, andThen]
  rw [expressionBefore]
  cases Expr.operation finish .comparison tokens with
  | error error => rfl
  | ok value =>
      simp only [Except.map]
      cases expect finish kind value.rest with
      | error error => rfl
      | ok closing => rfl

theorem readDeclarationRest_eq (name : String) :
    readDeclarationRest name = readTypeName.andThen fun type =>
      (single .assign).andThen fun _ => (readExpressionBefore .semicolon).andThen fun initial =>
        done (.declaration name type initial) := by
  funext finish tokens
  simp only [readDeclarationRest, readTypeName, readExpressionBefore, single, ofParser, andThen]
  rw [declarationRest]
  cases typeName finish tokens with
  | error error => rfl
  | ok type =>
      simp only [Except.map]
      cases expect finish .assign type.rest with
      | error error => rfl
      | ok assign =>
          simp only
          cases expressionBefore finish .semicolon assign.rest with
          | error error => rfl
          | ok initial => rfl

/-- An expression as a statement. -/
def readExpression : Reader Stmt :=
  (readExpressionBefore .semicolon).andThen fun value => done (.expression value)

/-- What follows the first branch of a conditional. -/
def readElse (condition : Expr) (thenBranch : Stmt) : Reader Stmt :=
  fun finish tokens =>
    match accept? .elseWord tokens with
    | none => done (.conditional condition thenBranch .empty) finish tokens
    | some elseWord =>
      (readStatement.andThen fun elseBranch =>
        done (.conditional condition thenBranch elseBranch)) finish elseWord.rest

/-- Whether the kind of its first token tells a statement from an expression, or may do so. -/
def leads : Token.Kind → Bool
  | .leftBrace | .whileWord | .ifWord | .identifier => true
  | _ => false

section

variable {token : Token} {tokens : List Token}

theorem readTypeName_cons (htoken : token.kind = .identifier) (finish : Token)
    (rest : List Token) :
    readTypeName finish (token :: rest) =
      match Ty.ofName? token.text with
      | none => .error (.unknownType token.text)
      | some type => .ok (type, rest) := by
  rw [readTypeName, ofParser, typeName, expect, accept?_cons rest htoken]
  simp only [Parsed.before]
  cases Ty.ofName? token.text with
  | none => rfl
  | some type => rfl

theorem readElse_of_clear {condition : Expr} {thenBranch : Stmt} (finish : Token)
    (htokens : Clear (· = .elseWord) tokens) :
    readElse condition thenBranch finish tokens =
      .ok (.conditional condition thenBranch .empty, tokens) := by
  rw [readElse, accept?_of_clear htokens]
  rfl

theorem readElse_cons {condition : Expr} {thenBranch : Stmt} (htoken : token.kind = .elseWord)
    (finish : Token) (rest : List Token) :
    readElse condition thenBranch finish (token :: rest) =
      (readStatement.andThen fun elseBranch =>
        done (.conditional condition thenBranch elseBranch)) finish rest := by
  rw [readElse, accept?_cons rest htoken]
  rfl

theorem readStatement_nil (finish : Token) :
    readStatement finish [] = .error (.noOperand finish) := by
  rw [readStatement, ofParser, statement]
  rfl

theorem readStatement_block (htoken : token.kind = .leftBrace) (finish : Token)
    (rest : List Token) :
    readStatement finish (token :: rest) =
      (readBody.andThen fun inner => done (.block inner)) finish rest := by
  simp only [readStatement, readBody, ofParser, andThen]
  rw [statement]
  simp only [htoken]
  cases body finish rest with
  | error error => rfl
  | ok inner => rfl

theorem readStatement_loop (htoken : token.kind = .whileWord) (finish : Token)
    (rest : List Token) :
    readStatement finish (token :: rest) =
      ((readExpressionBefore .doWord).andThen fun condition =>
        readStatement.andThen fun inner => done (.loop condition inner)) finish rest := by
  simp only [readStatement, readExpressionBefore, ofParser, andThen]
  rw [statement]
  simp only [htoken]
  cases expressionBefore finish .doWord rest with
  | error error => rfl
  | ok condition =>
      simp only [Except.map]
      cases statement finish condition.rest with
      | error error => rfl
      | ok inner => rfl

theorem readStatement_conditional (htoken : token.kind = .ifWord) (finish : Token)
    (rest : List Token) :
    readStatement finish (token :: rest) =
      ((readExpressionBefore .thenWord).andThen fun condition =>
        readStatement.andThen (readElse condition)) finish rest := by
  simp only [readStatement, readExpressionBefore, ofParser, andThen]
  rw [statement]
  simp only [htoken]
  cases expressionBefore finish .thenWord rest with
  | error error => rfl
  | ok condition =>
      simp only [Except.map]
      cases statement finish condition.rest with
      | error error => rfl
      | ok thenBranch =>
          simp only [readElse, readStatement, ofParser, andThen]
          cases accept? .elseWord thenBranch.rest with
          | none => rfl
          | some elseWord =>
              simp only
              cases statement finish elseWord.rest with
              | error error => rfl
              | ok elseBranch => rfl

theorem readStatement_declaration {colon : Token} (htoken : token.kind = .identifier)
    (hcolon : colon.kind = .colon) (finish : Token) (rest : List Token) :
    readStatement finish (token :: colon :: rest) =
      readDeclarationRest token.text finish rest := by
  simp only [readStatement, readDeclarationRest, ofParser]
  rw [statement]
  simp only [htoken, accept?_cons rest hcolon, Parsed.before]
  cases declarationRest finish token.text rest with
  | error error => rfl
  | ok declared => rfl

theorem readStatement_assignment {assign : Token} (htoken : token.kind = .identifier)
    (hassign : assign.kind = .assign) (finish : Token) (rest : List Token) :
    readStatement finish (token :: assign :: rest) =
      ((readExpressionBefore .semicolon).andThen fun value =>
        done (.assignment token.text value)) finish rest := by
  have hcolon : Clear (· = .colon) (assign :: rest) := clear_cons (by simp [hassign])
  simp only [readStatement, readExpressionBefore, ofParser, andThen]
  rw [statement]
  simp only [htoken, accept?_of_clear hcolon, accept?_cons rest hassign, Parsed.before]
  cases expressionBefore finish .semicolon rest with
  | error error => rfl
  | ok value => rfl

theorem readStatement_name (htoken : token.kind = .identifier) (finish : Token)
    (hcolon : Clear (· = .colon) tokens) (hassign : Clear (· = .assign) tokens) :
    readStatement finish (token :: tokens) = readExpression finish (token :: tokens) := by
  simp only [readStatement, readExpression, readExpressionBefore, ofParser, andThen]
  rw [statement]
  simp only [htoken, accept?_of_clear hcolon, accept?_of_clear hassign]
  cases expressionBefore finish .semicolon (token :: tokens) with
  | error error => rfl
  | ok value => rfl

theorem readStatement_expression (htoken : leads token.kind = false) (finish : Token)
    (rest : List Token) :
    readStatement finish (token :: rest) = readExpression finish (token :: rest) := by
  simp only [readStatement, readExpression, readExpressionBefore, ofParser, andThen]
  rw [statement]
  split
  · next hkind => rw [hkind] at htoken; cases htoken
  · next hkind => rw [hkind] at htoken; cases htoken
  · next hkind => rw [hkind] at htoken; cases htoken
  · next hkind => rw [hkind] at htoken; cases htoken
  · cases expressionBefore finish .semicolon (token :: rest) with
    | error error => rfl
    | ok value => rfl

theorem readStatement_of_clear (finish : Token) (htokens : Clear leads tokens) :
    readStatement finish tokens = readExpression finish tokens := by
  cases tokens with
  | nil =>
      have hmissing : Expr.readOperation .comparison finish [] = .error (.noOperand finish) := by
        simp only [Expr.readOperation_eq, Expr.readOperand_comparison, Expr.readOperand_sum,
          Expr.readOperand_product, Reader.andThen, Expr.readAtom_of_clear finish (clear_nil _)]
        rfl
      rw [readStatement_nil, readExpression, readExpressionBefore_eq, Reader.andThen,
        Reader.andThen, hmissing]
  | cons token rest => exact readStatement_expression (htokens token rfl) finish rest

theorem readBody_end (htoken : token.kind = .rightBrace) (finish : Token) (rest : List Token) :
    readBody finish (token :: rest) = .ok ([], rest) :=
  ofParser_of_takes (takes_bodyEnd htoken)

theorem readBody_of_clear (finish : Token) (htokens : Clear (· = .rightBrace) tokens) :
    readBody finish tokens = (readStatement.andThen fun first =>
      readBody.andThen fun others => done (first :: others)) finish tokens := by
  simp only [readBody, readStatement, ofParser, andThen]
  rw [body, accept?_of_clear htokens]
  simp only
  cases statement finish tokens with
  | error error => rfl
  | ok first =>
      simp only [Except.map]
      cases body finish first.rest with
      | error error => rfl
      | ok others => rfl

end

/-! ## What they decide -/

/-- The parsers of statements decide by the next token how to go on. -/
structure Decided (finish : Token) (tokens : List Token) : Prop where
  statement : Decides readStatement Spells finish tokens
  body : Decides readBody (Closed .rightBrace SpellsBody) finish tokens

/-- A word that closes a statement. -/
def semicolonWord : Token := ⟨.semicolon, ";", .start⟩

theorem spells_nothing : Spells [Expr.trueWord, semicolonWord] (.expression (.bool true)) :=
  .expression Expr.spells_trueWord rfl

section

variable {finish : Token} {tokens : List Token}

theorem decides_expressionBefore (kind : Token.Kind) (finish : Token) (tokens : List Token) :
    Decides (readExpressionBefore kind) (Closed kind Expr.Spells) finish tokens := by
  rw [readExpressionBefore_eq]
  exact ((Expr.decided finish tokens).operation .comparison).closed kind

theorem decides_expression (finish : Token) (tokens : List Token) :
    Decides readExpression Spells finish tokens := by
  apply (decides_expressionBefore .semicolon finish tokens).map
  rintro _ value ⟨inner, semicolon, rfl, hinner, hsemicolon⟩
  exact .expression hinner hsemicolon

/-- A name that is followed by neither a colon nor an assignment begins an expression. -/
theorem decides_expression_name {name : Token} (hname : name.kind = .identifier) (finish : Token)
    (rest : List Token) :
    Decides (fun finish rest => readExpression finish (name :: rest))
      (fun front => Spells (name :: front)) finish rest := by
  apply (decides_expression finish (name :: rest)).uncons
  · intro value hspells
    obtain ⟨first, others, htokens, -⟩ := exists_cons_of_spells hspells
    cases htokens
  · have hvalue : Expr.Spells [name] (.var name.text) := Expr.spells_of_atom (.name hname)
    have hread : readExpressionBefore .semicolon finish [name, semicolonWord] =
        .ok (.var name.text, []) :=
      ofParser_of_takes (takes_expressionBefore finish hvalue rfl rfl [])
    refine ⟨finish, [semicolonWord], (.expression (.var name.text), []), ?_⟩
    rw [readExpression, andThen, hread]
    rfl

/-- Tokens that name a type. -/
def SpellsType (tokens : List Token) (type : Ty) : Prop :=
  ∃ name, tokens = [name] ∧ name.kind = .identifier ∧ Ty.ofName? name.text = some type

theorem decides_typeName (finish : Token) (tokens : List Token) :
    Decides readTypeName SpellsType finish tokens := by
  have hviable : Viable SpellsType [] :=
    ⟨[⟨.identifier, "int", .start⟩], .int, _, rfl, rfl, rfl⟩
  cases tokens with
  | nil =>
      have hread : readTypeName finish [] = .error (.unexpected .identifier finish) := rfl
      exact decides_missing hread rfl hviable
  | cons token rest =>
      by_cases hkind : token.kind = .identifier
      · cases htype : Ty.ofName? token.text with
        | none =>
            have hread :
                readTypeName finish (token :: rest) = .error (.unknownType token.text) := by
              rw [readTypeName, ofParser, typeName, expect, accept?_cons rest hkind]
              simp only [Parsed.before, htype]
              rfl
            exact decides_blameless hread rfl
        | some type =>
            have hread (finish : Token) (rest : List Token) :
                readTypeName finish (token :: rest) = .ok (type, rest) := by
              rw [readTypeName, ofParser, typeName, expect, accept?_cons rest hkind]
              simp only [Parsed.before, htype]
              rfl
            refine Decides.cons (decides_done ?_) hread
            exact ⟨token, rfl, hkind, htype⟩
      · have hread (finish : Token) (rest : List Token) :
            readTypeName finish (token :: rest) = .error (.unexpected .identifier token) := by
          rw [readTypeName, ofParser, typeName, expect,
            accept?_of_clear (clear_cons (decide_eq_false hkind))]
          rfl
        exact decides_unexpected hread rfl hviable

/-- What follows the colon of a declaration. -/
theorem decides_declaration {name colon : Token} (hname : name.kind = .identifier)
    (hcolon : colon.kind = .colon) (finish : Token) (tokens : List Token) :
    Decides (readDeclarationRest name.text) (fun front => Spells (name :: colon :: front)) finish
      tokens := by
  have hspells {typeName assign : Token} {type : Ty} {value : List Token} {initial : Expr}
      (hkind : typeName.kind = .identifier) (htype : Ty.ofName? typeName.text = some type)
      (hassign : assign.kind = .assign) (hvalue : Closed .semicolon Expr.Spells value initial) :
      Spells (name :: colon :: typeName :: assign :: value)
        (.declaration name.text type initial) := by
    obtain ⟨inner, semicolon, rfl, hinner, hsemicolon⟩ := hvalue
    exact .declaration hname hcolon hkind htype hassign hinner hsemicolon
  have hinitial : Closed .semicolon Expr.Spells [Expr.trueWord, semicolonWord] (.bool true) :=
    ⟨[Expr.trueWord], semicolonWord, rfl, Expr.spells_trueWord, rfl⟩
  rw [readDeclarationRest_eq]
  apply (decides_typeName finish tokens).andThen
  · rintro _ type ⟨word, rfl, hkind, htype⟩
    exact ⟨⟨.assign, ":=", .start⟩ :: [Expr.trueWord, semicolonWord], _,
      hspells hkind htype rfl hinitial⟩
  · rintro type rest _ - ⟨word, rfl, hkind, htype⟩
    apply (decides_single finish rest).andThen
    · rintro _ assign ⟨rfl, hassign⟩
      exact ⟨[Expr.trueWord, semicolonWord], _, hspells hkind htype hassign hinitial⟩
    · rintro assign left _ - ⟨rfl, hassign⟩
      apply (decides_expressionBefore .semicolon finish left).map
      intro front initial hvalue
      exact hspells hkind htype hassign hvalue

theorem decides_assignment {name assign : Token} (hname : name.kind = .identifier)
    (hassign : assign.kind = .assign) (finish : Token) (tokens : List Token) :
    Decides ((readExpressionBefore .semicolon).andThen fun value =>
        done (.assignment name.text value))
      (fun front => Spells (name :: assign :: front)) finish tokens := by
  apply (decides_expressionBefore .semicolon finish tokens).map
  rintro _ value ⟨inner, semicolon, rfl, hinner, hsemicolon⟩
  exact .assignment hname hassign hinner hsemicolon

/-- The token behind a name tells declarations, assignments and expressions apart. -/
theorem decides_name {name : Token} (hname : name.kind = .identifier) (finish : Token)
    (rest : List Token) : Decides readStatement Spells finish (name :: rest) := by
  have hinner : Decides (fun finish rest => readStatement finish (name :: rest))
      (fun front => Spells (name :: front)) finish rest := by
    rcases clear_or_cons (· = .colon) rest with hcolon | ⟨colon, after, rfl, hkind⟩
    · rcases clear_or_cons (· = .assign) rest with hassign | ⟨assign, after, rfl, hkind⟩
      · exact (decides_expression_name hname finish rest).congr fun finish input hhead =>
          readStatement_name hname finish (hcolon.of_head? hhead) (hassign.of_head? hhead)
      · have hassign : assign.kind = .assign := of_decide_eq_true hkind
        exact (decides_assignment hname hassign finish after).cons
          (readStatement_assignment hname hassign)
    · have hcolon : colon.kind = .colon := of_decide_eq_true hkind
      exact (decides_declaration hname hcolon finish after).cons
        (readStatement_declaration hname hcolon)
  exact hinner.cons fun _ _ => rfl

variable
  (hshorter : ∀ shorter : List Token, shorter.length < tokens.length → Decided finish shorter)

include hshorter

theorem decides_body (hstatement : Decides readStatement Spells finish tokens) :
    Decides readBody (Closed .rightBrace SpellsBody) finish tokens := by
  rcases clear_or_cons (· = .rightBrace) tokens with hclear | ⟨closing, rest, rfl, hkind⟩
  · have hmore : Decides (readStatement.andThen fun first =>
          readBody.andThen fun others => done (first :: others))
        (Closed .rightBrace SpellsBody) finish tokens := by
      apply hstatement.andThen
      · intro front first hfirst
        have hbody : SpellsBody (front ++ []) [first] := .cons hfirst .nil
        rw [List.append_nil] at hbody
        exact viable_closed hbody .rightBrace
      · intro first rest front hread hfirst
        apply (hshorter rest (length_of_ofParser hread)).body.map
        rintro _ others ⟨inner, closing, rfl, hothers, hclosing⟩
        exact ⟨front ++ inner, closing, (List.append_assoc _ _ _).symm, .cons hfirst hothers,
          hclosing⟩
    exact hmore.congr fun finish input hhead => readBody_of_clear finish (hclear.of_head? hhead)
  · have hclosing : closing.kind = .rightBrace := of_decide_eq_true hkind
    refine Decides.cons (decides_done ?_) (readBody_end hclosing)
    exact ⟨[], closing, rfl, .nil, hclosing⟩

theorem decides_loop {word : Token} {rest : List Token} (hrest : tokens = word :: rest)
    (hword : word.kind = .whileWord) : Decides readStatement Spells finish tokens := by
  subst hrest
  have hspells {test inner : List Token} {condition : Expr} {body : Stmt}
      (htest : Closed .doWord Expr.Spells test condition) (hinner : Spells inner body) :
      Spells (word :: (test ++ inner)) (.loop condition body) := by
    obtain ⟨test, doWord, rfl, htest, hdo⟩ := htest
    have hloop := Spells.loop hword htest hdo hinner
    rw [List.append_cons] at hloop
    exact hloop
  refine Decides.cons ?_ (readStatement_loop hword)
  apply (decides_expressionBefore .doWord finish rest).andThen
  · intro test condition htest
    exact ⟨_, _, hspells htest spells_nothing⟩
  · intro condition left test hread htest
    have hless := Nat.lt_succ_of_lt (length_of_ofParser hread)
    apply (hshorter left hless).statement.map
    intro inner body hinner
    exact hspells htest hinner

theorem decides_conditional {word : Token} {rest : List Token} (hrest : tokens = word :: rest)
    (hword : word.kind = .ifWord) : Decides readStatement Spells finish tokens := by
  subst hrest
  have hthen {test inner : List Token} {condition : Expr} {thenBranch : Stmt}
      (htest : Closed .thenWord Expr.Spells test condition) (hinner : Spells inner thenBranch) :
      Spells (word :: (test ++ inner)) (.conditional condition thenBranch .empty) := by
    obtain ⟨test, thenWord, rfl, htest, hthenWord⟩ := htest
    have hconditional := Spells.ifThen hword htest hthenWord hinner
    rw [List.append_cons] at hconditional
    exact hconditional
  have helse {test inner other : List Token} {elseWord : Token} {condition : Expr}
      {thenBranch elseBranch : Stmt} (htest : Closed .thenWord Expr.Spells test condition)
      (hinner : Spells inner thenBranch) (helseWord : elseWord.kind = .elseWord)
      (hother : Spells other elseBranch) :
      Spells (word :: (test ++ (inner ++ elseWord :: other)))
        (.conditional condition thenBranch elseBranch) := by
    obtain ⟨test, thenWord, rfl, htest, hthenWord⟩ := htest
    have hconditional := Spells.ifThenElse hword htest hthenWord hinner helseWord hother
    rw [List.append_cons (word :: test), List.append_assoc] at hconditional
    exact hconditional
  refine Decides.cons ?_ (readStatement_conditional hword)
  apply (decides_expressionBefore .thenWord finish rest).andThen
  · intro test condition htest
    exact ⟨_, _, hthen htest spells_nothing⟩
  · intro condition behindTest test hreadTest htest
    have hless := Nat.lt_succ_of_lt (length_of_ofParser hreadTest)
    apply (hshorter behindTest hless).statement.andThen
    · intro inner thenBranch hinner
      exact viable_of_spells (hthen htest hinner)
    · intro thenBranch behindThen inner hreadThen hinner
      have hless' := Nat.lt_trans (length_of_ofParser hreadThen) hless
      rcases clear_or_cons (· = .elseWord) behindThen with hclear | ⟨elseWord, left, rfl, hkind⟩
      · refine Decides.congr (decides_done ?_) fun finish input hhead =>
          readElse_of_clear finish (hclear.of_head? hhead)
        rw [List.append_nil]
        exact hthen htest hinner
      · have helseWord : elseWord.kind = .elseWord := of_decide_eq_true hkind
        have hother := (hshorter left (Nat.lt_of_succ_lt hless')).statement
        refine Decides.cons (hother.map ?_) (readElse_cons helseWord)
        intro other elseBranch hspells
        exact helse htest hinner helseWord hspells

theorem decides_statement : Decides readStatement Spells finish tokens := by
  cases tokens with
  | nil => exact decides_missing (readStatement_nil finish) rfl (⟨_, _, spells_nothing⟩)
  | cons token rest =>
      cases hkind : token.kind with
      | leftBrace =>
          have hbody := (hshorter rest (Nat.lt_succ_self _)).body
          refine Decides.cons (hbody.map ?_) (readStatement_block hkind)
          rintro _ body ⟨inner, closing, rfl, hinner, hclosing⟩
          exact .block hkind hinner hclosing
      | whileWord => exact decides_loop hshorter rfl hkind
      | ifWord => exact decides_conditional hshorter rfl hkind
      | identifier => exact decides_name hkind finish rest
      | _ =>
          have hleads : leads token.kind = false := by rw [hkind]; rfl
          refine (decides_expression finish (token :: rest)).congr fun finish input hhead => ?_
          cases input with
          | nil => cases hhead
          | cons first others =>
              obtain rfl := Option.some.inj hhead
              exact readStatement_expression hleads finish others

end

theorem decided (finish : Token) (tokens : List Token) : Decided finish tokens := by
  -- By induction on the length: each step leaves fewer tokens to the parsers that it calls.
  have hshorter (shorter : List Token) (_ : shorter.length < tokens.length) :
      Decided finish shorter :=
    decided finish shorter
  have hstatement := decides_statement hshorter
  exact ⟨hstatement, decides_body hshorter hstatement⟩
termination_by tokens.length

/-- The words that are parsed as a program spell this program. -/
theorem spells_of_ofTokens {tokens : List Token} {program : Stmt}
    (hparsed : ofTokens tokens = .ok program) : Spells (words tokens) program :=
  spells_of_whole (decided _ _).statement hparsed

end Stmt

end WhileCompiler
