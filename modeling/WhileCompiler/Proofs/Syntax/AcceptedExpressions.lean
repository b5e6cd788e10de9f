import WhileCompiler.Expr.Grammar

/-!
# Every expression of the grammar is parsed

A parser that meets tokens which spell an expression takes exactly these, as long as the token
behind them cannot go on with the expression.  Chains of operators are derived from the right and
parsed from the left, so what the grammar derives in front of an operator is handed on to the parser
of the rest of the chain.
-/

namespace WhileCompiler

namespace Parsing

variable {α : Type} {bound : List Token → Nat} {finish : Token}

/-- The parser takes the tokens in front of the rest and makes a value of them. -/
def Takes (parser : (tokens : List Token) → Result α (bound tokens)) (tokens : List Token)
    (value : α) (rest : List Token) : Prop :=
  ∃ shorter, parser tokens = .ok ⟨value, rest, shorter⟩

/-- No token of these kinds comes first. -/
def Clear (kinds : Token.Kind → Bool) (tokens : List Token) : Prop :=
  ∀ token ∈ tokens.head?, kinds token.kind = false

theorem clear_nil (kinds : Token.Kind → Bool) : Clear kinds [] :=
  fun _ hmem => nomatch hmem

theorem clear_cons {kinds : Token.Kind → Bool} {token : Token} {rest : List Token}
    (htoken : kinds token.kind = false) : Clear kinds (token :: rest) := by
  rintro _ ⟨⟩
  exact htoken

/-- A token of some kinds comes first, and another kind is not among them. -/
theorem clear_cons_of_kinds {kinds : Token.Kind → Bool} {kind : Token.Kind} {token : Token}
    {rest : List Token} (htoken : kinds token.kind = true) (hkind : kinds kind = false) :
    Clear (· = kind) (token :: rest) := by
  refine clear_cons (decide_eq_false ?_)
  rintro rfl
  rw [hkind] at htoken
  cases htoken

theorem Clear.mono {more fewer : Token.Kind → Bool} {tokens : List Token}
    (htokens : Clear more tokens) (hkinds : ∀ kind, more kind = false → fewer kind = false) :
    Clear fewer tokens :=
  fun token hmem => hkinds _ (htokens token hmem)

/-- The parser takes certain tokens wherever no token of these kinds follows. -/
def TakesBefore (kinds : Token.Kind → Bool)
    (parser : (tokens : List Token) → Result α (bound tokens)) (tokens : List Token)
    (value : α) : Prop :=
  ∀ rest, Clear kinds rest → Takes parser (tokens ++ rest) value rest

theorem accept?_cons {kind : Token.Kind} {token : Token} (rest : List Token)
    (htoken : token.kind = kind) : accept? kind (token :: rest) = some (.before token rest) :=
  if_pos htoken

theorem accept?_of_clear {kind : Token.Kind} {tokens : List Token}
    (htokens : Clear (· = kind) tokens) : accept? kind tokens = none := by
  cases tokens with
  | nil => rfl
  | cons token rest => exact if_neg (by simpa using htokens token rfl)

theorem takes_expect (finish : Token) {kind : Token.Kind} {token : Token} (rest : List Token)
    (htoken : token.kind = kind) : Takes (expect finish kind) (token :: rest) token rest := by
  refine ⟨Nat.lt_succ_self _, ?_⟩
  rw [expect, accept?_cons rest htoken]
  rfl

theorem whole_of_takes {parser : (finish : Token) → (tokens : List Token) → Result α tokens.length}
    {tokens : List Token} {value : α}
    (hparser : Takes (parser (Parsing.finish tokens)) (words tokens) value []) :
    whole parser tokens = .ok value := by
  obtain ⟨shorter, hparsed⟩ := hparser
  rw [whole, hparsed]

/-- Words end where the end of the input is marked. -/
theorem words_append_cons {tokens : List Token}
    (hwords : ∀ token ∈ tokens, token.kind ≠ .endOfInput) (hfinish : finish.kind = .endOfInput)
    (after : List Token) :
    words (tokens ++ finish :: after) = tokens := by
  rw [words, List.takeWhile_append_of_pos (by simpa using hwords)]
  simp [hfinish]

theorem words_append_finish {tokens : List Token}
    (hwords : ∀ token ∈ tokens, token.kind ≠ .endOfInput) (hfinish : finish.kind = .endOfInput) :
    words (tokens ++ [finish]) = tokens :=
  words_append_cons hwords hfinish []

end Parsing

open Parsing

namespace Expr

namespace Tier

/-- Whether a token of the kind goes on with an operand of the tier that it stands behind. -/
def prolongsOperand : Tier → Token.Kind → Bool
  | product, kind => kind = .leftParenthesis
  | sum, kind => kind = .leftParenthesis || includes product kind
  | comparison, kind => kind = .leftParenthesis || includes product kind || includes sum kind

/-- Whether a token of the kind goes on with an operation of the tier that it stands behind. -/
def prolongs (tier : Tier) (kind : Token.Kind) : Bool :=
  tier.prolongsOperand kind || tier.includes kind

theorem prolongsOperand_of_prolongs {tier : Tier} {kind : Token.Kind}
    (hkind : tier.prolongs kind = false) : tier.prolongsOperand kind = false :=
  (Bool.or_eq_false_iff.1 hkind).1

theorem includes_of_prolongs {tier : Tier} {kind : Token.Kind}
    (hkind : tier.prolongs kind = false) : tier.includes kind = false :=
  (Bool.or_eq_false_iff.1 hkind).2

/-- An operator of a tier ends its left operand. -/
theorem prolongsOperand_of_includes {tier : Tier} {kind : Token.Kind}
    (hkind : tier.includes kind = true) : tier.prolongsOperand kind = false := by
  have hall : ∀ kind ∈ Token.Kind.all, tier.includes kind = true →
      tier.prolongsOperand kind = false := by
    cases tier <;> decide
  exact hall kind (Token.Kind.mem_all kind) hkind

theorem associative_of_ne {tier : Tier} (htier : tier ≠ comparison) : tier.associative = true := by
  cases tier with
  | comparison => exact absurd rfl htier
  | sum => rfl
  | product => rfl

end Tier

/-- Whether an expression can begin with a token of the kind. -/
def begins : Token.Kind → Bool
  | .leftParenthesis | .minus | .not | .integer | .boolean | .identifier => true
  | _ => false

section

variable {tier : Tier} {finish : Token} {tokens middle rest : List Token}
  {value left right joined : Expr}

/-! ## One step of each parser -/

theorem takes_operation (hoperand : Takes (operand finish tier) tokens value middle)
    (hchain : Takes (continuation finish tier value) middle joined rest) :
    Takes (operation finish tier) tokens joined rest := by
  obtain ⟨hmiddle, hoperand⟩ := hoperand
  obtain ⟨hrest, hchain⟩ := hchain
  refine ⟨Nat.lt_of_le_of_lt (Nat.le_of_lt_succ hrest) hmiddle, ?_⟩
  rw [operation, hoperand]
  simp only [hchain]
  rfl

/-- A chain ends where no operator of its tier follows. -/
theorem takes_continuation_end (hrest : Clear tier.includes rest) :
    Takes (continuation finish tier value) rest value rest := by
  refine ⟨Nat.lt_succ_self _, ?_⟩
  cases rest with
  | nil =>
      rw [continuation]
      rfl
  | cons token others =>
      rw [continuation, if_neg (by simp [hrest token rfl])]
      rfl

theorem takes_continuation_operator {operator : Token} (hassociative : tier.associative = true)
    (hincludes : tier.includes operator.kind = true)
    (hoperand : Takes (operand finish tier) tokens right middle)
    (hchain : Takes (continuation finish tier (.binary operator.text left right)) middle joined
      rest) : Takes (continuation finish tier left) (operator :: tokens) joined rest := by
  obtain ⟨hmiddle, hoperand⟩ := hoperand
  obtain ⟨hrest, hchain⟩ := hchain
  have hlength : rest.length < tokens.length :=
    Nat.lt_of_le_of_lt (Nat.le_of_lt_succ hrest) hmiddle
  refine ⟨Nat.lt_succ_of_lt (Nat.lt_succ_of_lt hlength), ?_⟩
  rw [continuation, if_pos hincludes, hoperand]
  simp only [hassociative, if_true, hchain]
  rfl

theorem takes_continuation_comparison {operator : Token}
    (hincludes : Tier.includes .comparison operator.kind = true)
    (hoperand : Takes (operand finish .comparison) tokens right rest) :
    Takes (continuation finish .comparison left) (operator :: tokens)
      (.binary operator.text left right) rest := by
  obtain ⟨hrest, hoperand⟩ := hoperand
  refine ⟨Nat.lt_succ_of_lt (Nat.lt_succ_of_lt hrest), ?_⟩
  rw [continuation, if_pos hincludes, hoperand]
  rfl

theorem takes_parentheses {opening closing : Token} (hopening : opening.kind = .leftParenthesis)
    (hinner : Takes (operation finish .comparison) tokens value (closing :: rest))
    (hclosing : closing.kind = .rightParenthesis) :
    Takes (atom finish) (opening :: tokens) value rest := by
  obtain ⟨hshorter, hinner⟩ := hinner
  obtain ⟨hrest, hexpect⟩ := takes_expect finish rest hclosing
  refine ⟨Nat.lt_succ_of_lt (Nat.lt_trans hrest hshorter), ?_⟩
  rw [atom]
  simp only [hopening, hinner, hexpect]
  rfl

theorem takes_unary {operator : Token} (hkind : operator.kind = .minus ∨ operator.kind = .not)
    (hinner : Takes (atom finish) tokens value rest) :
    Takes (atom finish) (operator :: tokens) (.unary operator.text value) rest := by
  obtain ⟨hrest, hinner⟩ := hinner
  refine ⟨Nat.lt_succ_of_lt hrest, ?_⟩
  rw [atom]
  rcases hkind with hkind | hkind
  · simp only [hkind, hinner]
    rfl
  · simp only [hkind, hinner]
    rfl

theorem takes_integer {token : Token} {number : Int32} (hkind : token.kind = .integer)
    (hread : Text.readInt32 token.text.toList = .ok number) :
    Takes (atom finish) (token :: rest) (.int number) rest := by
  refine ⟨Nat.lt_succ_self _, ?_⟩
  rw [atom]
  simp only [hkind, hread]
  rfl

theorem takes_boolean {token : Token} (hkind : token.kind = .boolean) :
    Takes (atom finish) (token :: rest) (.bool (token.text = "true")) rest := by
  refine ⟨Nat.lt_succ_self _, ?_⟩
  rw [atom]
  simp only [hkind]
  rfl

theorem takes_name {token : Token} (hkind : token.kind = .identifier)
    (hrest : Clear (· = .leftParenthesis) rest) :
    Takes (atom finish) (token :: rest) (.var token.text) rest := by
  refine ⟨Nat.lt_succ_self _, ?_⟩
  rw [atom]
  simp only [hkind, accept?_of_clear hrest]
  rfl

theorem takes_call {token opening : Token} {given : List Expr} (hkind : token.kind = .identifier)
    (hopening : opening.kind = .leftParenthesis)
    (hgiven : Takes (arguments finish) tokens given rest) :
    Takes (atom finish) (token :: opening :: tokens) (.call token.text given) rest := by
  obtain ⟨hrest, hgiven⟩ := hgiven
  refine ⟨Nat.lt_succ_of_lt (Nat.lt_succ_of_lt hrest), ?_⟩
  rw [atom]
  simp only [hkind, accept?_cons tokens hopening, Parsed.before, hgiven]
  rfl

theorem takes_noArguments {closing : Token} (hclosing : closing.kind = .rightParenthesis) :
    Takes (arguments finish) (closing :: rest) [] rest := by
  refine ⟨Nat.lt_succ_self _, ?_⟩
  rw [arguments, accept?_cons rest hclosing]
  rfl

theorem takes_someArguments {given : List Expr} (hbegins : Clear (· = .rightParenthesis) tokens)
    (hgiven : Takes (argumentList finish) tokens given rest) :
    Takes (arguments finish) tokens given rest := by
  obtain ⟨hrest, hgiven⟩ := hgiven
  refine ⟨hrest, ?_⟩
  rw [arguments, accept?_of_clear hbegins]
  exact hgiven

theorem takes_lastArgument {closing : Token}
    (hvalue : Takes (operation finish .comparison) tokens value (closing :: rest))
    (hclosing : closing.kind = .rightParenthesis) :
    Takes (argumentList finish) tokens [value] rest := by
  obtain ⟨hshorter, hvalue⟩ := hvalue
  obtain ⟨hrest, hexpect⟩ := takes_expect finish rest hclosing
  have hcomma : Clear (· = .comma) (closing :: rest) := clear_cons (by simp [hclosing])
  refine ⟨Nat.lt_trans hrest hshorter, ?_⟩
  rw [argumentList, hvalue]
  simp only [accept?_of_clear hcomma, hexpect]
  rfl

theorem takes_moreArguments {comma : Token} {others : List Expr}
    (hvalue : Takes (operation finish .comparison) tokens value (comma :: middle))
    (hcomma : comma.kind = .comma) (hothers : Takes (argumentList finish) middle others rest) :
    Takes (argumentList finish) tokens (value :: others) rest := by
  obtain ⟨hshorter, hvalue⟩ := hvalue
  obtain ⟨hrest, hothers⟩ := hothers
  refine ⟨Nat.lt_trans (Nat.lt_succ_of_lt hrest) hshorter, ?_⟩
  rw [argumentList, hvalue]
  simp only [accept?_cons middle hcomma, Parsed.before, hothers]
  rfl

end

/-! ## What the grammar derives -/

theorem spellsOperand_of_atom {tokens : List Token} {value : Expr}
    (hatom : SpellsAtom tokens value) : (tier : Tier) → SpellsOperand tier tokens value
  | .product => .ofAtom hatom
  | .sum => .ofProduct (.operand (.ofAtom hatom))
  | .comparison => .ofSum (.operand (.ofProduct (.operand (.ofAtom hatom))))

theorem spells_of_atom {tokens : List Token} {value : Expr} (hatom : SpellsAtom tokens value) :
    Spells tokens value :=
  .operand (spellsOperand_of_atom hatom .comparison)

mutual

theorem exists_cons_of_operation {tier : Tier} {tokens : List Token} {value : Expr} :
    SpellsOperation tier tokens value →
      ∃ first others, tokens = first :: others ∧ begins first.kind = true
  | .operand hoperand => exists_cons_of_operand hoperand
  | .chain _ hleft _ _ => by
      obtain ⟨first, others, rfl, hfirst⟩ := exists_cons_of_operation hleft
      exact ⟨first, _, rfl, hfirst⟩
  | .comparison hleft _ _ => by
      obtain ⟨first, others, rfl, hfirst⟩ := exists_cons_of_operand hleft
      exact ⟨first, _, rfl, hfirst⟩

theorem exists_cons_of_operand {tier : Tier} {tokens : List Token} {value : Expr} :
    SpellsOperand tier tokens value →
      ∃ first others, tokens = first :: others ∧ begins first.kind = true
  | .ofSum hsum => exists_cons_of_operation hsum
  | .ofProduct hproduct => exists_cons_of_operation hproduct
  | .ofAtom hatom => exists_cons_of_atom hatom

theorem exists_cons_of_atom {tokens : List Token} {value : Expr} :
    SpellsAtom tokens value → ∃ first others, tokens = first :: others ∧ begins first.kind = true
  | .parentheses hkind _ _ => ⟨_, _, rfl, by rw [hkind]; rfl⟩
  | .unary hkind _ => ⟨_, _, rfl, by rcases hkind with hkind | hkind <;> rw [hkind] <;> rfl⟩
  | .integer hkind _ => ⟨_, _, rfl, by rw [hkind]; rfl⟩
  | .boolean hkind => ⟨_, _, rfl, by rw [hkind]; rfl⟩
  | .name hkind => ⟨_, _, rfl, by rw [hkind]; rfl⟩
  | .call hkind _ _ _ => ⟨_, _, rfl, by rw [hkind]; rfl⟩

end

theorem clear_of_begins {kind : Token.Kind} (hkind : begins kind = false) {tokens rest : List Token}
    {value : Expr} (hspells : Spells tokens value) : Clear (· = kind) (tokens ++ rest) := by
  obtain ⟨first, others, rfl, hfirst⟩ := exists_cons_of_operation hspells
  exact clear_cons_of_kinds hfirst hkind

theorem clear_of_someArguments {tokens rest : List Token} {values : List Expr}
    (hspells : SpellsSomeArguments tokens values) :
    Clear (· = .rightParenthesis) (tokens ++ rest) := by
  cases hspells with
  | one hargument => exact clear_of_begins rfl hargument
  | more hargument hcomma hothers =>
      rw [List.append_assoc]
      exact clear_of_begins rfl hargument

/-- What the parser of a tier does with tokens that spell an operation of the tier.  In front of
more operators it takes these as well, with the operation as their first operand. -/
structure Accepts (finish : Token) (tier : Tier) (tokens : List Token) (value : Expr) : Prop where
  taken : TakesBefore tier.prolongs (operation finish tier) tokens value
  extended : tier ≠ .comparison → ∀ middle joined rest, Clear tier.prolongsOperand middle →
    Takes (continuation finish tier value) middle joined rest →
      Takes (operation finish tier) (tokens ++ middle) joined rest

section

variable {tier : Tier} {finish : Token} {before after : List Token} {left right : Expr}

theorem accepts_operand
    (hleft : TakesBefore tier.prolongsOperand (operand finish tier) before left) :
    Accepts finish tier before left where
  taken rest hrest :=
    takes_operation (hleft rest (hrest.mono fun _ => Tier.prolongsOperand_of_prolongs))
      (takes_continuation_end (hrest.mono fun _ => Tier.includes_of_prolongs))
  extended _ _ _ _ hmiddle hchain := takes_operation (hleft _ hmiddle) hchain

theorem Accepts.chain {operator : Token} (htier : tier ≠ .comparison)
    (hleft : Accepts finish tier before left) (hincludes : tier.includes operator.kind = true)
    (hright : TakesBefore tier.prolongsOperand (operand finish tier) after right) :
    Accepts finish tier (before ++ operator :: after) (.binary operator.text left right) := by
  have hextended (middle : List Token) (joined : Expr) (rest : List Token)
      (hmiddle : Clear tier.prolongsOperand middle)
      (hchain : Takes (continuation finish tier (.binary operator.text left right)) middle joined
        rest) :
      Takes (operation finish tier) ((before ++ operator :: after) ++ middle) joined rest := by
    rw [List.append_assoc, List.cons_append]
    have hstep := takes_continuation_operator (Tier.associative_of_ne htier) hincludes
      (hright middle hmiddle) hchain
    exact hleft.extended htier _ joined rest
      (clear_cons (Tier.prolongsOperand_of_includes hincludes)) hstep
  refine ⟨fun rest hrest => ?_, fun _ => hextended⟩
  exact hextended rest _ rest (hrest.mono fun _ => Tier.prolongsOperand_of_prolongs)
    (takes_continuation_end (hrest.mono fun _ => Tier.includes_of_prolongs))

theorem accepts_comparison {operator : Token}
    (hleft : TakesBefore Tier.comparison.prolongsOperand (operand finish .comparison) before left)
    (hincludes : Tier.includes .comparison operator.kind = true)
    (hright : TakesBefore Tier.comparison.prolongsOperand (operand finish .comparison) after
      right) :
    Accepts finish .comparison (before ++ operator :: after)
      (.binary operator.text left right) := by
  refine ⟨fun rest hrest => ?_, fun hne => absurd rfl hne⟩
  rw [List.append_assoc, List.cons_append]
  have hoperator := hleft (operator :: (after ++ rest))
    (clear_cons (Tier.prolongsOperand_of_includes hincludes))
  have hoperand := hright rest (hrest.mono fun _ => Tier.prolongsOperand_of_prolongs)
  exact takes_operation hoperator (takes_continuation_comparison hincludes hoperand)

/-- A phrase of a tier is an operand of the next looser one. -/
theorem takesBefore_operand {looser : Tier} (hphrase : Accepts finish tier before left)
    (hkinds : looser.prolongsOperand = tier.prolongs)
    (hparser : ∀ tokens, operand finish looser tokens = operation finish tier tokens) :
    TakesBefore looser.prolongsOperand (operand finish looser) before left := by
  intro rest hrest
  obtain ⟨hshorter, hparsed⟩ := hphrase.taken rest (hkinds ▸ hrest)
  exact ⟨hshorter, (hparser _).trans hparsed⟩

end

mutual

/-- Tokens that spell an operation are taken wherever nothing goes on with it. -/
theorem accepts_of_spells (finish : Token) {tier : Tier} {tokens : List Token} {value : Expr} :
    SpellsOperation tier tokens value → Accepts finish tier tokens value
  | .operand hoperand => accepts_operand (takesBefore_of_operand finish hoperand)
  | .chain htier hleft hincludes hright =>
      (accepts_of_spells finish hleft).chain htier hincludes (takesBefore_of_operand finish hright)
  | .comparison hleft hincludes hright =>
      accepts_comparison (takesBefore_of_operand finish hleft) hincludes
        (takesBefore_of_operand finish hright)

theorem takesBefore_of_operand (finish : Token) {tier : Tier} {tokens : List Token}
    {value : Expr} : SpellsOperand tier tokens value →
      TakesBefore tier.prolongsOperand (operand finish tier) tokens value
  | .ofSum hsum => takesBefore_operand (accepts_of_spells finish hsum) rfl fun _ => by rw [operand]
  | .ofProduct hproduct =>
      takesBefore_operand (accepts_of_spells finish hproduct) rfl fun _ => by rw [operand]
  | .ofAtom hatom => fun rest hrest => by
      obtain ⟨hshorter, hparsed⟩ := takesBefore_of_atom finish hatom rest hrest
      refine ⟨hshorter, ?_⟩
      rw [operand]
      exact hparsed

theorem takesBefore_of_atom (finish : Token) {tokens : List Token} {value : Expr} :
    SpellsAtom tokens value → TakesBefore (· = .leftParenthesis) (atom finish) tokens value
  | .parentheses hopening hinner hclosing => fun rest _ => by
      rw [List.append_assoc, List.cons_append]
      refine takes_parentheses hopening ?_ hclosing
      exact (accepts_of_spells finish hinner).taken _ (clear_cons (by rw [hclosing]; rfl))
  | .unary hkind hinner => fun rest hrest =>
      takes_unary hkind (takesBefore_of_atom finish hinner rest hrest)
  | .integer hkind hread => fun _ _ => takes_integer hkind hread
  | .boolean hkind => fun _ _ => takes_boolean hkind
  | .name hkind => fun _ hrest => takes_name hkind hrest
  | .call hkind hopening hinner hclosing => fun rest _ => by
      rw [List.append_assoc, List.cons_append, List.cons_append]
      exact takes_call hkind hopening (takes_of_arguments finish hinner hclosing rest)

theorem takes_of_arguments (finish : Token) {tokens : List Token} {values : List Expr}
    {closing : Token} : SpellsArguments tokens values → closing.kind = .rightParenthesis →
      ∀ rest, Takes (arguments finish) (tokens ++ closing :: rest) values rest
  | .none => fun hclosing _ => takes_noArguments hclosing
  | .some hsome => fun hclosing rest =>
      takes_someArguments (clear_of_someArguments hsome)
        (takes_of_someArguments finish hsome hclosing rest)

theorem takes_of_someArguments (finish : Token) {tokens : List Token} {values : List Expr}
    {closing : Token} : SpellsSomeArguments tokens values → closing.kind = .rightParenthesis →
      ∀ rest, Takes (argumentList finish) (tokens ++ closing :: rest) values rest
  | .one hargument => fun hclosing rest => by
      refine takes_lastArgument ?_ hclosing
      exact (accepts_of_spells finish hargument).taken _ (clear_cons (by rw [hclosing]; rfl))
  | .more hargument hcomma hothers => fun hclosing rest => by
      rw [List.append_assoc, List.cons_append]
      refine takes_moreArguments ?_ hcomma (takes_of_someArguments finish hothers hclosing rest)
      exact (accepts_of_spells finish hargument).taken _ (clear_cons (by rw [hcomma]; rfl))

end

end Expr

end WhileCompiler
