import WhileCompiler.Proofs.Syntax.DecidedStatements

/-!
# Parsers on replaced tokens

The parsers go by the kinds and the texts of the words in front of the end of the input.  If each
word is replaced by one of the same kind and text, and another end of the input is put behind them,
then a parser takes the corresponding words, or blames the corresponding token.  It makes no
difference whether the end is told to the parser or stands in the list, with more tokens behind it.
-/

namespace WhileCompiler

/-- The same fault, with another token to blame. -/
def SyntaxError.mapToken (convert : Token → Token) : SyntaxError → SyntaxError
  | .unexpected expected found => .unexpected expected (convert found)
  | .noOperand found => .noOperand (convert found)
  | .badInteger found fault => .badInteger (convert found) fault
  | .unknownType name => .unknownType name

namespace Parsing

open Reader

/-- Another input in place of one that ends with `finish`.  Where no word is left, the end of the
input shows again. -/
structure Replacement (finish : Token) where
  convert : Token → Token
  other : Token
  behind : List Token
  kind_convert : ∀ token, (convert token).kind = token.kind
  text_convert : ∀ token, (convert token).text = token.text
  current_behind : current other behind = convert finish
  clear_behind : Clear (· ≠ .endOfInput) behind

namespace Replacement

variable {α β : Type} {finish token : Token} {tokens rest : List Token}
  {replacement : Replacement finish}

/-- The words of the other input, and what stands behind them. -/
def input (replacement : Replacement finish) (tokens : List Token) : List Token :=
  tokens.map replacement.convert ++ replacement.behind

@[simp] theorem input_cons (replacement : Replacement finish) (token : Token)
    (rest : List Token) :
    replacement.input (token :: rest) = replacement.convert token :: replacement.input rest :=
  rfl

theorem current_input (replacement : Replacement finish) (tokens : List Token) :
    current replacement.other (replacement.input tokens) =
      replacement.convert (current finish tokens) := by
  cases tokens with
  | nil => exact replacement.current_behind
  | cons token rest => rfl

theorem clear_input (replacement : Replacement finish) {kinds : Token.Kind → Bool}
    (htokens : Clear kinds tokens) (hkinds : kinds .endOfInput = false) :
    Clear kinds (replacement.input tokens) := by
  cases tokens with
  | nil =>
      intro token hmem
      have hkind : token.kind = .endOfInput := by
        simpa using replacement.clear_behind token hmem
      rw [hkind]
      exact hkinds
  | cons token rest =>
      apply clear_cons
      rw [replacement.kind_convert]
      exact htokens token rfl

/-- What a reader makes of its tokens, and those that it leaves, in the other input. -/
def outcome (replacement : Replacement finish) :
    Except SyntaxError (α × List Token) → Except SyntaxError (α × List Token)
  | .error error => .error (error.mapToken replacement.convert)
  | .ok (value, rest) => .ok (value, replacement.input rest)

/-- A reader that does the same with the other input. -/
def KeptBy (replacement : Replacement finish) (reader : Reader α) (tokens : List Token) : Prop :=
  reader replacement.other (replacement.input tokens) =
    replacement.outcome (reader finish tokens)

theorem keptBy_done (replacement : Replacement finish) (value : α) (tokens : List Token) :
    replacement.KeptBy (done value) tokens := rfl

theorem KeptBy.andThen {first : Reader α} {next : α → Reader β}
    (hfirst : replacement.KeptBy first tokens)
    (hnext : ∀ value rest, first finish tokens = .ok (value, rest) →
      replacement.KeptBy (next value) rest) :
    replacement.KeptBy (first.andThen next) tokens := by
  rw [KeptBy, Reader.andThen, hfirst, Reader.andThen]
  cases hread : first finish tokens with
  | error error => rfl
  | ok result => exact hnext result.1 result.2 hread

theorem KeptBy.map {reader : Reader α} (hreader : replacement.KeptBy reader tokens)
    (convert : α → β) :
    replacement.KeptBy (reader.andThen fun value => done (convert value)) tokens :=
  hreader.andThen fun value rest _ => replacement.keptBy_done (convert value) rest

/-- A reader that goes on behind its first token, of which it uses the kind and the text. -/
theorem KeptBy.cons {reader inner : Reader α} (hinner : replacement.KeptBy inner rest)
    (hread : ∀ same : Token, same.kind = token.kind → same.text = token.text →
      ∀ finish rest, reader finish (same :: rest) = inner finish rest) :
    replacement.KeptBy reader (token :: rest) := by
  rw [KeptBy, input_cons, hread _ (replacement.kind_convert token) (replacement.text_convert token),
    hread token rfl rfl]
  exact hinner

/-- A reader that goes on like another one where no token of some kinds comes first. -/
theorem KeptBy.congr {reader inner : Reader α} {kinds : Token.Kind → Bool}
    (hinner : replacement.KeptBy inner tokens) (htokens : Clear kinds tokens)
    (hkinds : kinds .endOfInput = false)
    (hread : ∀ finish tokens, Clear kinds tokens → reader finish tokens = inner finish tokens) :
    replacement.KeptBy reader tokens := by
  rw [KeptBy, hread finish tokens htokens,
    hread replacement.other _ (replacement.clear_input htokens hkinds)]
  exact hinner

/-- A reader that fails where no token of some kinds comes first. -/
theorem keptBy_failing {reader : Reader α} {kinds : Token.Kind → Bool}
    (fault : Token → SyntaxError)
    (hfault : ∀ convert token, (fault token).mapToken convert = fault (convert token))
    (htokens : Clear kinds tokens) (hkinds : kinds .endOfInput = false)
    (hread : ∀ finish tokens, Clear kinds tokens →
      reader finish tokens = .error (fault (current finish tokens))) :
    replacement.KeptBy reader tokens := by
  rw [KeptBy, hread finish tokens htokens,
    hread replacement.other _ (replacement.clear_input htokens hkinds), outcome, hfault,
    replacement.current_input]

/-- A token of a fixed kind, of which nothing else is used, and what follows it. -/
theorem keptBy_behind {kind : Token.Kind} {next : Reader α} (hkind : kind ≠ .endOfInput)
    (hnext : ∀ token rest, tokens = token :: rest → replacement.KeptBy next rest) :
    replacement.KeptBy ((single kind).andThen fun _ => next) tokens := by
  rcases clear_or_cons (· = kind) tokens with hclear | ⟨token, rest, rfl, htoken⟩
  · apply keptBy_failing (.unexpected kind) (fun _ _ => rfl) hclear (decide_eq_false hkind.symm)
    intro finish tokens htokens
    rw [Reader.andThen, single_of_clear finish htokens]
  · apply KeptBy.cons (hnext token rest rfl)
    intro same hsame _ finish rest
    rw [Reader.andThen, single_cons finish rest (hsame.trans (of_decide_eq_true htoken))]

theorem KeptBy.closed {reader : Reader α} (hreader : replacement.KeptBy reader tokens)
    (kind : Token.Kind) (hkind : kind ≠ .endOfInput) :
    replacement.KeptBy (reader.andThen fun value => (single kind).andThen fun _ => done value)
      tokens :=
  hreader.andThen fun value _ _ =>
    keptBy_behind hkind fun _ rest _ => replacement.keptBy_done value rest

end Replacement

end Parsing

open Parsing Reader Replacement

namespace Expr

/-! ## Expressions -/

/-- The parsers of expressions do the same with the other input. -/
structure Kept {finish : Token} (replacement : Replacement finish) (tokens : List Token) :
    Prop where
  atom : replacement.KeptBy readAtom tokens
  operand : ∀ tier, replacement.KeptBy (readOperand tier) tokens
  operation : ∀ tier, replacement.KeptBy (readOperation tier) tokens
  continuation : ∀ tier left, replacement.KeptBy (readContinuation tier left) tokens
  argumentList : replacement.KeptBy readArgumentList tokens
  arguments : replacement.KeptBy readArguments tokens

section

variable {finish : Token} {replacement : Replacement finish} {tokens : List Token}

theorem keptBy_arguments (hargumentList : replacement.KeptBy readArgumentList tokens) :
    replacement.KeptBy readArguments tokens := by
  rcases clear_or_cons (· = .rightParenthesis) tokens with hclear | ⟨closing, rest, rfl, hkind⟩
  · exact hargumentList.congr hclear rfl fun finish _ => readArguments_of_clear finish
  · apply (replacement.keptBy_done [] rest).cons
    intro same hsame _
    exact readArguments_end (hsame.trans (of_decide_eq_true hkind))

theorem keptBy_integer {token : Token} {rest : List Token} (htoken : token.kind = .integer) :
    replacement.KeptBy readAtom (token :: rest) := by
  have hconverted := (replacement.kind_convert token).trans htoken
  rw [KeptBy, input_cons, readAtom_integer htoken, readAtom_integer hconverted,
    replacement.text_convert]
  cases Text.readInt32 token.text.toList with
  | error fault => rfl
  | ok number => rfl

variable
  (hshorter : ∀ shorter : List Token, shorter.length < tokens.length → Kept replacement shorter)

include hshorter

theorem keptBy_continuation (tier : Tier) (left : Expr) :
    replacement.KeptBy (readContinuation tier left) tokens := by
  rcases clear_or_cons tier.includes tokens with hclear | ⟨operator, rest, rfl, hincludes⟩
  · have hend : tier.includes .endOfInput = false := by cases tier <;> rfl
    exact (replacement.keptBy_done left tokens).congr hclear hend fun finish _ =>
      readContinuation_of_clear finish
  · have hright : replacement.KeptBy (readRight tier left operator) rest := by
      apply ((hshorter rest (Nat.lt_succ_self _)).operand tier).andThen
      intro right after hread
      split
      · have hless := Nat.lt_succ_of_lt (length_of_ofParser hread)
        exact (hshorter after hless).continuation tier _
      · exact replacement.keptBy_done _ after
    apply hright.cons
    intro same hkind htext finish rest
    rw [readContinuation_cons (hkind ▸ hincludes), readRight, readRight, htext]

theorem keptBy_operation {tier : Tier} (hoperand : replacement.KeptBy (readOperand tier) tokens) :
    replacement.KeptBy (readOperation tier) tokens := by
  rw [readOperation_eq]
  apply hoperand.andThen
  intro value rest hread
  exact (hshorter rest (length_of_ofParser hread)).continuation tier value

theorem keptBy_name {token : Token} {rest : List Token} (hrest : tokens = token :: rest)
    (htoken : token.kind = .identifier) : replacement.KeptBy readAtom tokens := by
  subst hrest
  rcases clear_or_cons (· = .leftParenthesis) rest with hclear | ⟨opening, inner, rfl, hkind⟩
  · rw [KeptBy, readAtom_name htoken finish hclear, input_cons,
      readAtom_name ((replacement.kind_convert token).trans htoken) _
        (replacement.clear_input hclear rfl), replacement.text_convert]
    rfl
  · have hopening : opening.kind = .leftParenthesis := of_decide_eq_true hkind
    have hless := Nat.lt_succ_of_lt (Nat.lt_succ_self inner.length)
    rw [KeptBy, readAtom_call htoken hopening, input_cons, input_cons,
      readAtom_call ((replacement.kind_convert token).trans htoken)
        ((replacement.kind_convert opening).trans hopening), replacement.text_convert]
    exact (hshorter inner hless).arguments.map (Expr.call token.text)

theorem keptBy_unary {token : Token} {rest : List Token} (hrest : tokens = token :: rest)
    (htoken : token.kind = .minus ∨ token.kind = .not) : replacement.KeptBy readAtom tokens := by
  subst hrest
  apply ((hshorter rest (Nat.lt_succ_self _)).atom.map (Expr.unary token.text)).cons
  intro same hsame htext finish rest
  rw [readAtom_unary (hsame ▸ htoken), htext]

theorem keptBy_atom : replacement.KeptBy readAtom tokens := by
  rcases clear_or_cons begins tokens with hclear | ⟨token, rest, rfl, hbegins⟩
  · exact keptBy_failing .noOperand (fun _ _ => rfl) hclear rfl fun finish _ =>
      readAtom_of_clear finish
  · cases hkind : token.kind with
    | leftParenthesis =>
        have hinner := (hshorter rest (Nat.lt_succ_self _)).operation .comparison
        apply (hinner.closed .rightParenthesis (by decide)).cons
        exact fun _ hsame _ => readAtom_parentheses (hsame.trans hkind)
    | minus => exact keptBy_unary hshorter rfl (.inl hkind)
    | not => exact keptBy_unary hshorter rfl (.inr hkind)
    | integer => exact keptBy_integer hkind
    | boolean =>
        apply (replacement.keptBy_done (.bool (token.text = "true")) rest).cons
        intro same hsame htext finish rest
        rw [readAtom, ofParser_of_takes (takes_boolean (hsame.trans hkind)), htext]
        rfl
    | identifier => exact keptBy_name hshorter rfl hkind
    | _ =>
        rw [hkind] at hbegins
        cases hbegins

theorem keptBy_moreArguments (first : Expr) :
    replacement.KeptBy (readMoreArguments first) tokens := by
  rcases clear_or_cons (· = .comma) tokens with hclear | ⟨comma, rest, rfl, hkind⟩
  · have hlast : replacement.KeptBy ((single .rightParenthesis).andThen fun _ => done [first])
        tokens :=
      keptBy_behind (by decide) fun _ rest _ => replacement.keptBy_done [first] rest
    exact hlast.congr hclear rfl fun finish _ => readMoreArguments_of_clear finish
  · apply ((hshorter rest (Nat.lt_succ_self _)).argumentList.map (first :: ·)).cons
    exact fun _ hsame _ => readMoreArguments_comma (hsame.trans (of_decide_eq_true hkind))

theorem keptBy_argumentList (hoperation : replacement.KeptBy (readOperation .comparison) tokens) :
    replacement.KeptBy readArgumentList tokens := by
  rw [readArgumentList_eq]
  apply hoperation.andThen
  intro first rest hread
  have hless := length_of_ofParser hread
  exact keptBy_moreArguments (fun shorter hlt => hshorter shorter (Nat.lt_trans hlt hless)) first

end

theorem kept {finish : Token} (replacement : Replacement finish) (tokens : List Token) :
    Kept replacement tokens := by
  -- By induction on the length: each step leaves fewer tokens to the parsers that it calls.
  have hshorter (shorter : List Token) (_ : shorter.length < tokens.length) :
      Kept replacement shorter :=
    kept replacement shorter
  have hatom := keptBy_atom hshorter
  have hproduct : replacement.KeptBy (readOperand .product) tokens := by
    rw [readOperand_product]
    exact hatom
  have hsum : replacement.KeptBy (readOperand .sum) tokens := by
    rw [readOperand_sum]
    exact keptBy_operation hshorter hproduct
  have hcomparison : replacement.KeptBy (readOperand .comparison) tokens := by
    rw [readOperand_comparison]
    exact keptBy_operation hshorter hsum
  have hoperand (tier : Tier) : replacement.KeptBy (readOperand tier) tokens := by
    cases tier with
    | comparison => exact hcomparison
    | sum => exact hsum
    | product => exact hproduct
  have hlist := keptBy_argumentList hshorter (keptBy_operation hshorter hcomparison)
  exact {
    atom := hatom
    operand := hoperand
    operation := fun tier => keptBy_operation hshorter (hoperand tier)
    continuation := keptBy_continuation hshorter
    argumentList := hlist
    arguments := keptBy_arguments hlist }
termination_by tokens.length

end Expr

namespace Stmt

/-! ## Statements -/

/-- The parsers of statements do the same with the other input. -/
structure Kept {finish : Token} (replacement : Replacement finish) (tokens : List Token) :
    Prop where
  statement : replacement.KeptBy readStatement tokens
  body : replacement.KeptBy readBody tokens

section

variable {finish : Token} {replacement : Replacement finish} {tokens : List Token}

theorem keptBy_expressionBefore (replacement : Replacement finish) (kind : Token.Kind)
    (hkind : kind ≠ .endOfInput) (tokens : List Token) :
    replacement.KeptBy (readExpressionBefore kind) tokens := by
  rw [readExpressionBefore_eq]
  exact ((Expr.kept replacement tokens).operation .comparison).closed kind hkind

theorem keptBy_expression (replacement : Replacement finish) (tokens : List Token) :
    replacement.KeptBy readExpression tokens :=
  (keptBy_expressionBefore replacement .semicolon (by decide) tokens).map Stmt.expression

theorem keptBy_typeName (replacement : Replacement finish) (tokens : List Token) :
    replacement.KeptBy readTypeName tokens := by
  rcases clear_or_cons (· = .identifier) tokens with hclear | ⟨name, rest, rfl, hkind⟩
  · apply keptBy_failing (.unexpected .identifier) (fun _ _ => rfl) hclear rfl
    intro finish tokens htokens
    rw [readTypeName, ofParser, typeName, expect, accept?_of_clear htokens]
    rfl
  · have hname : name.kind = .identifier := of_decide_eq_true hkind
    have hconverted := (replacement.kind_convert name).trans hname
    rw [KeptBy, input_cons, readTypeName_cons hname, readTypeName_cons hconverted,
      replacement.text_convert]
    cases Ty.ofName? name.text with
    | none => rfl
    | some type => rfl

theorem keptBy_declaration (replacement : Replacement finish) (name : String)
    (tokens : List Token) : replacement.KeptBy (readDeclarationRest name) tokens := by
  rw [readDeclarationRest_eq]
  apply (keptBy_typeName replacement tokens).andThen
  intro type rest _
  apply keptBy_behind (by decide)
  intro _ rest _
  exact (keptBy_expressionBefore replacement .semicolon (by decide) rest).map
    (Stmt.declaration name type)

/-- The token behind a name tells declarations, assignments and expressions apart. -/
theorem keptBy_name (replacement : Replacement finish) {name : Token}
    (hname : name.kind = .identifier) (rest : List Token) :
    replacement.KeptBy readStatement (name :: rest) := by
  have hconverted := (replacement.kind_convert name).trans hname
  rcases clear_or_cons (· = .colon) rest with hcolon | ⟨colon, after, rfl, hkind⟩
  · rcases clear_or_cons (· = .assign) rest with hassign | ⟨assign, after, rfl, hkind⟩
    · rw [KeptBy, readStatement_name hname finish hcolon hassign, input_cons,
        readStatement_name hconverted _ (replacement.clear_input hcolon rfl)
          (replacement.clear_input hassign rfl)]
      exact keptBy_expression replacement (name :: rest)
    · have hassign : assign.kind = .assign := of_decide_eq_true hkind
      rw [KeptBy, readStatement_assignment hname hassign, input_cons, input_cons,
        readStatement_assignment hconverted ((replacement.kind_convert assign).trans hassign),
        replacement.text_convert]
      exact (keptBy_expressionBefore replacement .semicolon (by decide) after).map
        (Stmt.assignment name.text)
  · have hcolon : colon.kind = .colon := of_decide_eq_true hkind
    rw [KeptBy, readStatement_declaration hname hcolon, input_cons, input_cons,
      readStatement_declaration hconverted ((replacement.kind_convert colon).trans hcolon),
      replacement.text_convert]
    exact keptBy_declaration replacement name.text after

variable
  (hshorter : ∀ shorter : List Token, shorter.length < tokens.length → Kept replacement shorter)

include hshorter

theorem keptBy_body (hstatement : replacement.KeptBy readStatement tokens) :
    replacement.KeptBy readBody tokens := by
  rcases clear_or_cons (· = .rightBrace) tokens with hclear | ⟨closing, rest, rfl, hkind⟩
  · have hmore : replacement.KeptBy (readStatement.andThen fun first =>
        readBody.andThen fun others => done (first :: others)) tokens := by
      apply hstatement.andThen
      intro first rest hread
      exact (hshorter rest (length_of_ofParser hread)).body.map (first :: ·)
    exact hmore.congr hclear rfl fun finish _ => readBody_of_clear finish
  · apply (replacement.keptBy_done [] rest).cons
    exact fun _ hsame _ => readBody_end (hsame.trans (of_decide_eq_true hkind))

theorem keptBy_loop {word : Token} {rest : List Token} (hrest : tokens = word :: rest)
    (hword : word.kind = .whileWord) : replacement.KeptBy readStatement tokens := by
  subst hrest
  have hloop : replacement.KeptBy ((readExpressionBefore .doWord).andThen fun condition =>
      readStatement.andThen fun inner => done (Stmt.loop condition inner)) rest := by
    apply (keptBy_expressionBefore replacement .doWord (by decide) rest).andThen
    intro condition left hread
    have hless := Nat.lt_succ_of_lt (length_of_ofParser hread)
    exact (hshorter left hless).statement.map (Stmt.loop condition)
  exact hloop.cons fun _ hsame _ => readStatement_loop (hsame.trans hword)

theorem keptBy_else {condition : Expr} {thenBranch : Stmt} :
    replacement.KeptBy (readElse condition thenBranch) tokens := by
  rcases clear_or_cons (· = .elseWord) tokens with hclear | ⟨elseWord, rest, rfl, hkind⟩
  · exact (replacement.keptBy_done (.conditional condition thenBranch .empty) tokens).congr hclear
      rfl fun finish _ => readElse_of_clear finish
  · have hother := (hshorter rest (Nat.lt_succ_self _)).statement
    apply (hother.map (Stmt.conditional condition thenBranch)).cons
    exact fun _ hsame _ => readElse_cons (hsame.trans (of_decide_eq_true hkind))

theorem keptBy_conditional {word : Token} {rest : List Token} (hrest : tokens = word :: rest)
    (hword : word.kind = .ifWord) : replacement.KeptBy readStatement tokens := by
  subst hrest
  have hconditional : replacement.KeptBy ((readExpressionBefore .thenWord).andThen
      fun condition => readStatement.andThen (readElse condition)) rest := by
    apply (keptBy_expressionBefore replacement .thenWord (by decide) rest).andThen
    intro condition behindTest hreadTest
    have hless := Nat.lt_succ_of_lt (length_of_ofParser hreadTest)
    apply (hshorter behindTest hless).statement.andThen
    intro thenBranch behindThen hreadThen
    have hless' := Nat.lt_trans (length_of_ofParser hreadThen) hless
    exact keptBy_else fun shorter hlt => hshorter shorter (Nat.lt_trans hlt hless')
  exact hconditional.cons fun _ hsame _ => readStatement_conditional (hsame.trans hword)

theorem keptBy_statement : replacement.KeptBy readStatement tokens := by
  rcases clear_or_cons leads tokens with hclear | ⟨token, rest, rfl, hleads⟩
  · exact (keptBy_expression replacement tokens).congr hclear rfl fun finish _ =>
      readStatement_of_clear finish
  · cases hkind : token.kind with
    | leftBrace =>
        apply ((hshorter rest (Nat.lt_succ_self _)).body.map Stmt.block).cons
        exact fun _ hsame _ => readStatement_block (hsame.trans hkind)
    | whileWord => exact keptBy_loop hshorter rfl hkind
    | ifWord => exact keptBy_conditional hshorter rfl hkind
    | identifier => exact keptBy_name replacement hkind rest
    | _ =>
        rw [hkind] at hleads
        cases hleads

end

theorem kept {finish : Token} (replacement : Replacement finish) (tokens : List Token) :
    Kept replacement tokens := by
  -- By induction on the length: each step leaves fewer tokens to the parsers that it calls.
  have hshorter (shorter : List Token) (_ : shorter.length < tokens.length) :
      Kept replacement shorter :=
    kept replacement shorter
  have hstatement := keptBy_statement hshorter
  exact ⟨hstatement, keptBy_body hshorter hstatement⟩
termination_by tokens.length

end Stmt

end WhileCompiler
