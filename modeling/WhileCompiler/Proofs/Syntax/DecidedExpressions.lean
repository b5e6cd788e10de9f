import WhileCompiler.Proofs.Syntax.Lookahead

/-!
# How expressions are parsed

The parsers of expressions, taken apart into steps that each decide by the next token how to go on.
What they take then spells their results, so that an expression is parsed exactly if it is derived.
-/

namespace WhileCompiler

open Parsing Reader

namespace Expr

/-! ## The parsers as readers -/

def readOperation (tier : Tier) : Reader Expr :=
  ofParser fun finish => operation finish tier

def readOperand (tier : Tier) : Reader Expr :=
  ofParser fun finish => operand finish tier

def readContinuation (tier : Tier) (left : Expr) : Reader Expr :=
  ofParser fun finish => continuation finish tier left

def readAtom : Reader Expr :=
  ofParser atom

def readArguments : Reader (List Expr) :=
  ofParser arguments

def readArgumentList : Reader (List Expr) :=
  ofParser argumentList

theorem readOperation_eq (tier : Tier) :
    readOperation tier = (readOperand tier).andThen (readContinuation tier) := by
  funext finish tokens
  simp only [readOperation, readOperand, readContinuation, ofParser, andThen]
  rw [operation]
  cases operand finish tier tokens with
  | error error => rfl
  | ok first =>
      simp only [Except.map]
      cases continuation finish tier first.value first.rest with
      | error error => rfl
      | ok chain => rfl

theorem readOperand_comparison : readOperand .comparison = readOperation .sum := by
  funext finish tokens
  rw [readOperand, ofParser, operand]
  rfl

theorem readOperand_sum : readOperand .sum = readOperation .product := by
  funext finish tokens
  rw [readOperand, ofParser, operand]
  rfl

theorem readOperand_product : readOperand .product = readAtom := by
  funext finish tokens
  rw [readOperand, ofParser, operand]
  rfl

section

variable {tier : Tier} {left : Expr} {token : Token} {tokens : List Token}

theorem readContinuation_of_clear (finish : Token) (htokens : Clear tier.includes tokens) :
    readContinuation tier left finish tokens = .ok (left, tokens) :=
  ofParser_of_takes (takes_continuation_end htokens)

/-- What follows an operator. -/
def readRight (tier : Tier) (left : Expr) (operator : Token) : Reader Expr :=
  (readOperand tier).andThen fun right =>
    if tier.associative then readContinuation tier (.binary operator.text left right)
    else done (.binary operator.text left right)

theorem readContinuation_cons (hincludes : tier.includes token.kind = true) (finish : Token)
    (rest : List Token) :
    readContinuation tier left finish (token :: rest) = readRight tier left token finish rest := by
  simp only [readContinuation, readRight, readOperand, ofParser, andThen]
  rw [continuation, if_pos hincludes]
  cases operand finish tier rest with
  | error error => rfl
  | ok right =>
      cases hassociative : tier.associative with
      | true =>
          simp only [Except.map, if_true, ofParser]
          cases continuation finish tier (.binary token.text left right.value) right.rest with
          | error error => rfl
          | ok chain => rfl
      | false => rfl

theorem readAtom_parentheses (htoken : token.kind = .leftParenthesis) (finish : Token)
    (rest : List Token) :
    readAtom finish (token :: rest) = ((readOperation .comparison).andThen fun value =>
      (single .rightParenthesis).andThen fun _ => done value) finish rest := by
  simp only [readAtom, readOperation, single, ofParser, andThen]
  rw [atom]
  simp only [htoken]
  cases operation finish .comparison rest with
  | error error => rfl
  | ok inner =>
      simp only [Except.map]
      cases expect finish .rightParenthesis inner.rest with
      | error error => rfl
      | ok closing => rfl

theorem readAtom_unary (htoken : token.kind = .minus ∨ token.kind = .not) (finish : Token)
    (rest : List Token) :
    readAtom finish (token :: rest) =
      (readAtom.andThen fun value => done (.unary token.text value)) finish rest := by
  simp only [readAtom, ofParser, andThen]
  rw [atom]
  rcases htoken with htoken | htoken
  · simp only [htoken]
    cases atom finish rest with
    | error error => rfl
    | ok inner => rfl
  · simp only [htoken]
    cases atom finish rest with
    | error error => rfl
    | ok inner => rfl

theorem readAtom_integer (htoken : token.kind = .integer) (finish : Token) (rest : List Token) :
    readAtom finish (token :: rest) =
      match Text.readInt32 token.text.toList with
      | .error fault => .error (.badInteger token fault)
      | .ok number => .ok (.int number, rest) := by
  rw [readAtom, ofParser, atom]
  simp only [htoken]
  cases Text.readInt32 token.text.toList with
  | error fault => rfl
  | ok number => rfl

theorem readAtom_name (htoken : token.kind = .identifier) (finish : Token)
    (htokens : Clear (· = .leftParenthesis) tokens) :
    readAtom finish (token :: tokens) = .ok (.var token.text, tokens) :=
  ofParser_of_takes (takes_name htoken htokens)

theorem readAtom_call {opening : Token} (htoken : token.kind = .identifier)
    (hopening : opening.kind = .leftParenthesis) (finish : Token) (rest : List Token) :
    readAtom finish (token :: opening :: rest) =
      (readArguments.andThen fun given => done (.call token.text given)) finish rest := by
  simp only [readAtom, readArguments, ofParser, andThen]
  rw [atom]
  simp only [htoken, accept?_cons rest hopening, Parsed.before]
  cases arguments finish rest with
  | error error => rfl
  | ok given => rfl

theorem readAtom_of_not_begins (htoken : begins token.kind = false) (finish : Token)
    (rest : List Token) : readAtom finish (token :: rest) = .error (.noOperand token) := by
  rw [readAtom, ofParser, atom]
  split <;> first | (next hkind => rw [hkind] at htoken; cases htoken) | rfl

theorem readAtom_of_clear (finish : Token) (htokens : Clear begins tokens) :
    readAtom finish tokens = .error (.noOperand (current finish tokens)) := by
  cases tokens with
  | nil =>
      rw [readAtom, ofParser, atom]
      rfl
  | cons token rest => exact readAtom_of_not_begins (htokens token rfl) finish rest

theorem readArguments_end (htoken : token.kind = .rightParenthesis) (finish : Token)
    (rest : List Token) : readArguments finish (token :: rest) = .ok ([], rest) :=
  ofParser_of_takes (takes_noArguments htoken)

theorem readArguments_of_clear (finish : Token)
    (htokens : Clear (· = .rightParenthesis) tokens) :
    readArguments finish tokens = readArgumentList finish tokens := by
  rw [readArguments, ofParser, arguments, accept?_of_clear htokens]
  rfl

/-- What follows an argument. -/
def readMoreArguments (first : Expr) : Reader (List Expr) :=
  fun finish tokens =>
    match accept? .comma tokens with
    | some comma =>
      (readArgumentList.andThen fun others => done (first :: others)) finish comma.rest
    | none => ((single .rightParenthesis).andThen fun _ => done [first]) finish tokens

theorem readMoreArguments_comma {first : Expr} (htoken : token.kind = .comma) (finish : Token)
    (rest : List Token) :
    readMoreArguments first finish (token :: rest) =
      (readArgumentList.andThen fun others => done (first :: others)) finish rest := by
  rw [readMoreArguments, accept?_cons rest htoken]
  rfl

theorem readMoreArguments_of_clear {first : Expr} (finish : Token)
    (htokens : Clear (· = .comma) tokens) :
    readMoreArguments first finish tokens =
      ((single .rightParenthesis).andThen fun _ => done [first]) finish tokens := by
  rw [readMoreArguments, accept?_of_clear htokens]

theorem readArgumentList_eq :
    readArgumentList = (readOperation .comparison).andThen readMoreArguments := by
  funext finish tokens
  simp only [readArgumentList, readOperation, ofParser, andThen]
  rw [argumentList]
  cases operation finish .comparison tokens with
  | error error => rfl
  | ok first =>
      simp only [Except.map, readMoreArguments, readArgumentList, single, ofParser, andThen]
      cases accept? .comma first.rest with
      | none =>
          cases expect finish .rightParenthesis first.rest with
          | error error => rfl
          | ok closing => rfl
      | some comma =>
          simp only
          cases argumentList finish comma.rest with
          | error error => rfl
          | ok others => rfl

end

/-! ## What they decide -/

/-- A word that completes an expression wherever an operand is missing. -/
def trueWord : Token := ⟨.boolean, "true", .start⟩

theorem spellsAtom_trueWord : SpellsAtom [trueWord] (.bool true) :=
  .boolean rfl

theorem spells_trueWord : Spells [trueWord] (.bool true) :=
  spells_of_atom spellsAtom_trueWord

/-- What can stand as the left operand of an operator of the tier. -/
def SpellsLeft (tier : Tier) (tokens : List Token) (value : Expr) : Prop :=
  SpellsOperand tier tokens value ∨ tier ≠ .comparison ∧ SpellsOperation tier tokens value

theorem SpellsLeft.operation {tier : Tier} {tokens : List Token} {value : Expr}
    (hleft : SpellsLeft tier tokens value) : SpellsOperation tier tokens value :=
  hleft.elim .operand fun hchain => hchain.2

theorem SpellsLeft.binary {tier : Tier} {before after : List Token} {operator : Token}
    {left right : Expr} (hleft : SpellsLeft tier before left)
    (hincludes : tier.includes operator.kind = true) (hright : SpellsOperand tier after right) :
    SpellsOperation tier (before ++ operator :: after) (.binary operator.text left right) := by
  rcases hleft with hleft | ⟨htier, hleft⟩
  · cases tier with
    | comparison => exact .comparison hleft hincludes hright
    | sum => exact .chain (by simp) (.operand hleft) hincludes hright
    | product => exact .chain (by simp) (.operand hleft) hincludes hright
  · exact .chain htier hleft hincludes hright

theorem Tier.ne_comparison_of_associative {tier : Tier} (htier : tier.associative = true) :
    tier ≠ .comparison := by
  rintro rfl
  cases htier

/-- The parsers of expressions decide by the next token how to go on. -/
structure Decided (finish : Token) (tokens : List Token) : Prop where
  atom : Decides readAtom SpellsAtom finish tokens
  operand : ∀ tier, Decides (readOperand tier) (SpellsOperand tier) finish tokens
  operation : ∀ tier, Decides (readOperation tier) (SpellsOperation tier) finish tokens
  continuation : ∀ tier left before, SpellsLeft tier before left →
    Decides (readContinuation tier left) (fun after => SpellsOperation tier (before ++ after))
      finish tokens
  argumentList : Decides readArgumentList (Closed .rightParenthesis SpellsSomeArguments) finish
    tokens
  arguments : Decides readArguments (Closed .rightParenthesis SpellsArguments) finish tokens

section

variable {finish : Token} {tokens : List Token}

theorem decides_arguments
    (hargumentList : Decides readArgumentList (Closed .rightParenthesis SpellsSomeArguments)
      finish tokens) :
    Decides readArguments (Closed .rightParenthesis SpellsArguments) finish tokens := by
  rcases clear_or_cons (· = .rightParenthesis) tokens with hclear | ⟨closing, rest, rfl, hkind⟩
  · refine Decides.congr (hargumentList.mono ?_) fun finish input hhead =>
      readArguments_of_clear finish (hclear.of_head? hhead)
    rintro _ values ⟨inner, closing, rfl, hinner, hclosing⟩
    exact ⟨inner, closing, rfl, .some hinner, hclosing⟩
  · have hclosing : closing.kind = .rightParenthesis := of_decide_eq_true hkind
    refine Decides.cons (decides_done ?_) (readArguments_end hclosing)
    exact ⟨[], closing, rfl, .none, hclosing⟩

variable
  (hshorter : ∀ shorter : List Token, shorter.length < tokens.length → Decided finish shorter)

include hshorter

theorem decides_continuation {tier : Tier} {left : Expr} {before : List Token}
    (hleft : SpellsLeft tier before left) :
    Decides (readContinuation tier left) (fun after => SpellsOperation tier (before ++ after))
      finish tokens := by
  rcases clear_or_cons tier.includes tokens with hclear | ⟨operator, rest, rfl, hincludes⟩
  · refine Decides.congr (decides_done ?_) fun finish input hhead =>
      readContinuation_of_clear finish (hclear.of_head? hhead)
    rw [List.append_nil]
    exact hleft.operation
  · refine Decides.cons ?_ (readContinuation_cons hincludes)
    apply ((hshorter rest (Nat.lt_succ_self _)).operand tier).andThen
    · intro front right hright
      exact viable_of_spells (hleft.binary hincludes hright)
    · intro right after front hread hright
      have hjoined := hleft.binary hincludes hright
      cases hassociative : tier.associative with
      | true =>
          have hless := Nat.lt_succ_of_lt (length_of_ofParser hread)
          have htier := Tier.ne_comparison_of_associative hassociative
          refine ((hshorter after hless).continuation tier _ _ (.inr ⟨htier, hjoined⟩)).mono ?_
          intro more value hspells
          rw [List.append_assoc] at hspells
          exact hspells
      | false =>
          apply decides_done
          rw [List.append_nil]
          exact hjoined

theorem decides_operation {tier : Tier}
    (hoperand : Decides (readOperand tier) (SpellsOperand tier) finish tokens) :
    Decides (readOperation tier) (SpellsOperation tier) finish tokens := by
  rw [readOperation_eq]
  apply hoperand.andThen
  · intro front value hspells
    exact viable_of_spells (.operand hspells)
  · intro value rest front hread hspells
    exact (hshorter rest (length_of_ofParser hread)).continuation tier value front (.inl hspells)

/-- A name is called exactly if a parenthesis follows. -/
theorem decides_name {token : Token} {rest : List Token} (hrest : tokens = token :: rest)
    (htoken : token.kind = .identifier) : Decides readAtom SpellsAtom finish tokens := by
  subst hrest
  have hinner : Decides (fun finish rest => readAtom finish (token :: rest))
      (fun front => SpellsAtom (token :: front)) finish rest := by
    rcases clear_or_cons (· = .leftParenthesis) rest with hclear | ⟨opening, inner, rfl, hkind⟩
    · refine Decides.congr (decides_done ?_) fun finish input hhead =>
        readAtom_name htoken finish (hclear.of_head? hhead)
      exact .name htoken
    · have hopening : opening.kind = .leftParenthesis := of_decide_eq_true hkind
      have hless := Nat.lt_succ_of_lt (Nat.lt_succ_self inner.length)
      refine Decides.cons ((hshorter inner hless).arguments.map ?_) (readAtom_call htoken hopening)
      rintro _ given ⟨front, closing, rfl, hgiven, hclosing⟩
      exact .call htoken hopening hgiven hclosing
  exact hinner.cons fun _ _ => rfl

theorem decides_atom : Decides readAtom SpellsAtom finish tokens := by
  have hviable : Viable SpellsAtom [] := ⟨[trueWord], _, spellsAtom_trueWord⟩
  cases tokens with
  | nil =>
      have hread : readAtom finish [] = .error (.noOperand finish) := by
        rw [readAtom, ofParser, atom]
        rfl
      exact decides_missing hread rfl hviable
  | cons token rest =>
      have hrest := hshorter rest (Nat.lt_succ_self _)
      cases hkind : token.kind with
      | leftParenthesis =>
          refine Decides.cons ?_ (readAtom_parentheses hkind)
          refine ((hrest.operation .comparison).closed .rightParenthesis).mono ?_
          rintro _ value ⟨inner, closing, rfl, hinner, hclosing⟩
          exact .parentheses hkind hinner hclosing
      | minus =>
          refine Decides.cons (hrest.atom.map ?_) (readAtom_unary (.inl hkind))
          exact fun front value => .unary (.inl hkind)
      | not =>
          refine Decides.cons (hrest.atom.map ?_) (readAtom_unary (.inr hkind))
          exact fun front value => .unary (.inr hkind)
      | integer =>
          cases hnumber : Text.readInt32 token.text.toList with
          | error fault =>
              have hread (finish : Token) (rest : List Token) :
                  readAtom finish (token :: rest) = .error (.badInteger token fault) := by
                rw [readAtom, ofParser, atom]
                simp only [hkind, hnumber]
                rfl
              exact decides_unexpected hread rfl hviable
          | ok number =>
              refine Decides.cons (decides_done ?_) fun finish rest =>
                ofParser_of_takes (takes_integer hkind hnumber)
              exact .integer hkind hnumber
      | boolean =>
          refine Decides.cons (decides_done ?_) fun finish rest =>
            ofParser_of_takes (takes_boolean hkind)
          exact .boolean hkind
      | identifier => exact decides_name hshorter rfl hkind
      | _ =>
          have hbegins : begins token.kind = false := by rw [hkind]; rfl
          exact decides_unexpected (readAtom_of_not_begins hbegins) rfl hviable

theorem decides_moreArguments {first : Expr} {front : List Token} (hfirst : Spells front first) :
    Decides (readMoreArguments first)
      (fun after => Closed .rightParenthesis SpellsSomeArguments (front ++ after)) finish
      tokens := by
  rcases clear_or_cons (· = .comma) tokens with hclear | ⟨comma, rest, rfl, hkind⟩
  · have hlast : SpellsSomeArguments front [first] := .one hfirst
    exact (decides_closing hlast .rightParenthesis finish tokens).congr fun finish input hhead =>
      readMoreArguments_of_clear finish (hclear.of_head? hhead)
  · have hcomma : comma.kind = .comma := of_decide_eq_true hkind
    have hrest := (hshorter rest (Nat.lt_succ_self _)).argumentList
    refine Decides.cons (hrest.map ?_) (readMoreArguments_comma hcomma)
    rintro _ others ⟨inner, closing, rfl, hothers, hclosing⟩
    exact ⟨front ++ comma :: inner, closing, by simp, .more hfirst hcomma hothers, hclosing⟩

theorem decides_argumentList
    (hoperation : Decides (readOperation .comparison) (SpellsOperation .comparison) finish tokens) :
    Decides readArgumentList (Closed .rightParenthesis SpellsSomeArguments) finish tokens := by
  rw [readArgumentList_eq]
  apply hoperation.andThen
  · intro front first hfirst
    exact viable_closed (.one hfirst) .rightParenthesis
  · intro first rest front hread hfirst
    have hless := length_of_ofParser hread
    exact decides_moreArguments (fun shorter hlt => hshorter shorter (Nat.lt_trans hlt hless))
      hfirst

end

theorem decided (finish : Token) (tokens : List Token) : Decided finish tokens := by
  -- By induction on the length: each step leaves fewer tokens to the parsers that it calls.
  have hshorter (shorter : List Token) (_ : shorter.length < tokens.length) :
      Decided finish shorter :=
    decided finish shorter
  have hatom := decides_atom hshorter
  have hproduct : Decides (readOperand .product) (SpellsOperand .product) finish tokens := by
    rw [readOperand_product]
    exact hatom.mono fun _ _ => .ofAtom
  have hsum : Decides (readOperand .sum) (SpellsOperand .sum) finish tokens := by
    rw [readOperand_sum]
    exact (decides_operation hshorter hproduct).mono fun _ _ => .ofProduct
  have hcomparison :
      Decides (readOperand .comparison) (SpellsOperand .comparison) finish tokens := by
    rw [readOperand_comparison]
    exact (decides_operation hshorter hsum).mono fun _ _ => .ofSum
  have hoperand (tier : Tier) : Decides (readOperand tier) (SpellsOperand tier) finish tokens := by
    cases tier with
    | comparison => exact hcomparison
    | sum => exact hsum
    | product => exact hproduct
  have hlist := decides_argumentList hshorter (decides_operation hshorter hcomparison)
  exact {
    atom := hatom
    operand := hoperand
    operation := fun tier => decides_operation hshorter (hoperand tier)
    continuation := fun _ _ _ => decides_continuation hshorter
    argumentList := hlist
    arguments := decides_arguments hlist }
termination_by tokens.length

/-- A list of words, closed by the end of the input, is parsed as an expression exactly if the words
spell it. -/
theorem ofTokens_iff_spells {tokens : List Token} {finish : Token}
    (hwords : ∀ token ∈ tokens, token.kind ≠ .endOfInput) (hfinish : finish.kind = .endOfInput)
    {value : Expr} : ofTokens (tokens ++ [finish]) = .ok value ↔ Spells tokens value := by
  have hwordsTaken := words_append_finish hwords hfinish
  constructor
  · intro hparsed
    rw [← hwordsTaken]
    exact spells_of_whole ((decided _ _).operation .comparison) hparsed
  · intro hspells
    refine whole_of_takes ?_
    have htaken := (accepts_of_spells (Parsing.finish (tokens ++ [finish])) hspells).taken []
      (clear_nil _)
    rw [hwordsTaken]
    rwa [List.append_nil] at htaken

end Expr

end WhileCompiler
