import Mathlib
import WhileCompiler.Proofs.Syntax.DecidedExpressions
import WhileCompiler.Proofs.Syntax.Layout
import WhileCompiler.Proofs.Syntax.WrittenText
import WhileCompiler.Proofs.Text.Numerals

/-!
# Reading back expressions

An expression is written with every binary operation in parentheses.  The text is read back as the
same expression, provided that the expression has no negative constant and that its names and
operators are ones that a source can spell.  Every expression that is parsed from a source is of
this form.
-/

namespace WhileCompiler.Expr

open Text Token

def unaryOperators : List String :=
  ["-", "!"]

def binaryOperators : List String :=
  ["+", "-", "*", "/", "%", "==", "<>", "!=", "<", ">", "<=", ">="]

mutual

/-- Whether a source can spell an expression as it stands. -/
def isWritable : Expr → Bool
  | .int value => 0 ≤ value.toInt
  | .bool _ => true
  | .var name => isName name.toList
  | .unary operator operand => unaryOperators.contains operator && operand.isWritable
  | .binary operator left right =>
    binaryOperators.contains operator && left.isWritable && right.isWritable
  | .call function arguments => isName function.toList && areWritable arguments

def areWritable : List Expr → Bool
  | [] => true
  | first :: rest => first.isWritable && areWritable rest

end

/-! ## Constants -/

theorem isNumeral_toString_of_nonneg {number : Int} (hnumber : 0 ≤ number) :
    isNumeral (toString number).toList = true := by
  obtain ⟨magnitude, rfl⟩ := Int.eq_ofNat_of_zero_le hnumber
  rw [toString_int_of_nonneg]
  exact isNumeral_iff.2 ⟨toString_nat_ne_nil magnitude, fun c => isDigit_of_mem_toString⟩

/-- A numeral has no sign, so the number that is read is not negative. -/
theorem toInt_nonneg_of_isNumeral {chars : List Char} {value : Int32}
    (hnumeral : isNumeral chars = true) (hread : readInt32 chars = .ok value) :
    0 ≤ value.toInt := by
  obtain ⟨hne, hdigit⟩ := isNumeral_iff.1 hnumeral
  rw [readInt32_of_digits hne hdigit, readMagnitude_eq_readDigits _ _ hne] at hread
  cases hdigits : readDigits 0x7FFFFFFF .tooLarge 0 chars with
  | error fault =>
      rw [hdigits] at hread
      cases hread
  | ok magnitude =>
      have hle := readDigits_le (Nat.zero_le _) hdigits
      rw [hdigits] at hread
      cases hread
      rw [Int32.toInt_ofInt_of_le (by omega) (by omega)]
      exact Int.natCast_nonneg magnitude

/-! ## Operators -/

theorem exists_kind_of_unaryOperator : ∀ operator ∈ unaryOperators,
    ∃ kind ∈ [Kind.minus, Kind.not], (operator.toList, kind) ∈ punctuation := by
  decide

theorem exists_kind_of_binaryOperator : ∀ operator ∈ binaryOperators,
    ∃ tier ∈ [Tier.comparison, Tier.sum, Tier.product], ∃ kind ∈ Kind.all,
      kind ≠ .endOfInput ∧ tier.includes kind = true ∧ spells kind operator.toList = true := by
  decide

theorem spells_of_operation {tokens : List Token} {value : Expr} :
    {tier : Tier} → SpellsOperation tier tokens value → Spells tokens value
  | .comparison, hoperation => hoperation
  | .sum, hoperation => .operand (.ofSum hoperation)
  | .product, hoperation => .operand (.ofSum (.operand (.ofProduct hoperation)))

theorem spells_binary {tier : Tier} {before after : List Token} {operator : Token}
    {left right : Expr} (hleft : SpellsAtom before left)
    (hoperator : tier.includes operator.kind = true) (hright : SpellsAtom after right) :
    Spells (before ++ operator :: after) (.binary operator.text left right) := by
  have hbefore := spellsOperand_of_atom hleft tier
  have hafter := spellsOperand_of_atom hright tier
  cases tier with
  | comparison => exact .comparison hbefore hoperator hafter
  | sum => exact spells_of_operation (.chain (by decide) (.operand hbefore) hoperator hafter)
  | product => exact spells_of_operation (.chain (by decide) (.operand hbefore) hoperator hafter)

/-! ## Each form of an expression -/

theorem startsAfresh_of_isName {name : String} (hname : isName name.toList = true) :
    StartsAfresh name.toList := by
  simp only [isName, Bool.and_eq_true] at hname
  exact startsAfresh_of_continuesIdentifier (continuesIdentifier_of_mem hname.1.1)

theorem toList_text_binary (operator : String) (left right : Expr) :
    (text (.binary operator left right)).toList =
      "(".toList ++ (left.text.toList ++ ' ' :: (operator.toList ++ ' ' ::
        (right.text.toList ++ ")".toList))) := by
  simp [text, toString, String.toList_append]

theorem toList_text_call (function : String) (arguments : List Expr) :
    (text (.call function arguments)).toList =
      function.toList ++ ("(".toList ++
        ((commaSeparated (texts arguments)).toList ++ ")".toList)) := by
  simp [text, toString, String.toList_append]

/-- Punctuation in front of an expression does not go on into its text. -/
theorem startsAfresh_text {expression : Expr} (hwritable : expression.isWritable = true) :
    StartsAfresh expression.text.toList := by
  cases expression with
  | int value =>
      have hnumeral := isNumeral_toString_of_nonneg (of_decide_eq_true hwritable)
      refine startsAfresh_of_continuesIdentifier fun c hc => continuesIdentifier_iff.2 (.inr ?_)
      exact (isNumeral_iff.1 hnumeral).2 c (text.eq_1 value ▸ hc)
  | bool value => cases value <;> exact startsAfresh_cons rfl
  | var name =>
      rw [text]
      exact startsAfresh_of_isName hwritable
  | unary operator operand =>
      simp only [isWritable, unaryOperators, Bool.and_eq_true, List.contains_iff_mem,
        List.mem_cons, List.not_mem_nil, or_false] at hwritable
      rw [text, String.toList_append]
      rcases hwritable.1 with rfl | rfl
      · exact startsAfresh_cons rfl
      · exact startsAfresh_cons rfl
  | binary operator left right =>
      rw [toList_text_binary]
      exact startsAfresh_cons rfl
  | call function arguments =>
      rw [isWritable, Bool.and_eq_true] at hwritable
      rw [toList_text_call]
      exact (startsAfresh_of_isName hwritable.1).append (startsAfresh_cons rfl)

theorem readsAs_int {value : Int32} (hvalue : 0 ≤ value.toInt) :
    ReadsAs (SpellsAtom · (.int value)) (text (.int value)).toList := by
  rw [text]
  refine (readsAs_word .integer (isNumeral_toString_of_nonneg hvalue) (by decide)).mono ?_
  rintro _ ⟨position, rfl⟩
  exact .integer rfl (readInt32_toString_toInt value)

theorem readsAs_bool (value : Bool) :
    ReadsAs (SpellsAtom · (.bool value)) (text (.bool value)).toList := by
  have hboolean (word : String) (hword : spells .boolean word.toList = true) :
      ReadsAs (SpellsAtom · (.bool (word = "true"))) word.toList := by
    refine (readsAs_word .boolean hword (by decide)).mono ?_
    rintro _ ⟨position, rfl⟩
    exact .boolean rfl
  cases value with
  | true => exact hboolean "true" (by decide)
  | false => exact hboolean "false" (by decide)

theorem readsAs_var {name : String} (hname : isName name.toList = true) :
    ReadsAs (SpellsAtom · (.var name)) (text (.var name)).toList := by
  rw [text]
  refine (readsAs_word .identifier hname (by decide)).mono ?_
  rintro _ ⟨position, rfl⟩
  exact .name rfl

theorem readsAs_unary {operator : String} {operand : Expr} (hoperator : operator ∈ unaryOperators)
    (hwritable : operand.isWritable = true)
    (hoperand : ReadsAs (SpellsAtom · operand) operand.text.toList) :
    ReadsAs (SpellsAtom · (.unary operator operand)) (text (.unary operator operand)).toList := by
  obtain ⟨kind, hkind, hmark⟩ := exists_kind_of_unaryOperator operator hoperator
  rw [text, String.toList_append]
  refine (hoperand.behindMark kind hmark (startsAfresh_text hwritable)).mono ?_
  rintro _ ⟨_, tokens, ⟨position, rfl⟩, htokens, rfl⟩
  exact .unary (by simpa using hkind) htokens

theorem readsAs_closed {property : List Token → Prop} {chars : List Char}
    (hreads : ReadsAs property chars) :
    ReadsAs (Followed property (IsToken .rightParenthesis ")")) (chars ++ ")".toList) :=
  hreads.closedBy .rightParenthesis (by decide) (by decide) (endsBefore_cons (by decide))

theorem readsAs_binary {operator : String} {left right : Expr}
    (hoperator : operator ∈ binaryOperators) (hwritable : left.isWritable = true)
    (hleft : ReadsAs (SpellsAtom · left) left.text.toList)
    (hright : ReadsAs (SpellsAtom · right) right.text.toList) :
    ReadsAs (SpellsAtom · (.binary operator left right))
      (text (.binary operator left right)).toList := by
  obtain ⟨tier, -, kind, -, hkind, htier, hspells⟩ :=
    exists_kind_of_binaryOperator operator hoperator
  have hinner := hleft.spaced ((readsAs_word kind hspells hkind).spaced (readsAs_closed hright))
  rw [toList_text_binary]
  refine (hinner.behindMark .leftParenthesis (by decide)
    ((startsAfresh_text hwritable).append endsBefore_space.startsAfresh)).mono ?_
  rintro _ ⟨_, _, ⟨opened, rfl⟩, ⟨before, _, hbefore, ⟨_, _, ⟨between, rfl⟩,
    ⟨after, _, hafter, ⟨closed, rfl⟩, rfl⟩, rfl⟩, rfl⟩, rfl⟩
  let opening : Token := ⟨.leftParenthesis, "(", opened⟩
  let closing : Token := ⟨.rightParenthesis, ")", closed⟩
  have hspelled : SpellsAtom (opening :: (before ++ ⟨kind, operator, between⟩ :: after) ++ [closing])
      (.binary operator left right) :=
    .parentheses rfl (spells_binary hbefore htier hafter) rfl
  simpa using hspelled

theorem readsAs_call {function : String} {arguments : List Expr}
    (hname : isName function.toList = true)
    (hstarts : StartsAfresh (commaSeparated (texts arguments)).toList)
    (harguments : ReadsAs (SpellsArguments · arguments)
      (commaSeparated (texts arguments)).toList) :
    ReadsAs (SpellsAtom · (.call function arguments)) (text (.call function arguments)).toList := by
  rw [toList_text_call]
  have hinner : ReadsAs _ ("(".toList ++ ((commaSeparated (texts arguments)).toList ++ _)) :=
    (readsAs_closed harguments).behindMark .leftParenthesis (by decide)
      (hstarts.append (startsAfresh_cons rfl))
  refine (hinner.behindWord .identifier hname (by decide) ?_).mono ?_
  · rintro rest - c ⟨⟩
    rfl
  · rintro _ ⟨_, _, ⟨_, rfl⟩, ⟨_, _, ⟨_, rfl⟩, ⟨inner, _, hspells, ⟨_, rfl⟩, rfl⟩, rfl⟩, rfl⟩
    exact .call rfl rfl hspells rfl

theorem toList_commaSeparated (first second : String) (rest : List String) :
    (commaSeparated (first :: second :: rest)).toList =
      first.toList ++ (",".toList ++ ' ' :: (commaSeparated (second :: rest)).toList) := by
  simp [commaSeparated, String.intercalate_cons_cons, String.toList_append]

/-- The texts of arguments begin like that of the first one. -/
theorem startsAfresh_texts {arguments : List Expr} (hwritable : areWritable arguments = true) :
    StartsAfresh (commaSeparated (texts arguments)).toList := by
  match arguments, hwritable with
  | [], _ => exact nofun
  | [argument], hwritable =>
      rw [areWritable, Bool.and_eq_true] at hwritable
      rw [texts, texts, commaSeparated, String.intercalate_singleton]
      exact startsAfresh_text hwritable.1
  | first :: second :: others, hwritable =>
      rw [areWritable, Bool.and_eq_true] at hwritable
      rw [texts, texts, toList_commaSeparated]
      exact (startsAfresh_text hwritable.1).append (startsAfresh_cons rfl)

theorem readsAs_argument {argument : Expr}
    (hargument : ReadsAs (SpellsAtom · argument) argument.text.toList) :
    ReadsAs (SpellsSomeArguments · [argument]) (commaSeparated (texts [argument])).toList := by
  rw [texts, texts, commaSeparated, String.intercalate_singleton]
  exact hargument.mono fun _ hatom => .one (spells_of_atom hatom)

theorem readsAs_arguments {first second : Expr} {others : List Expr}
    (hfirst : ReadsAs (SpellsAtom · first) first.text.toList)
    (hothers : ReadsAs (SpellsSomeArguments · (second :: others))
      (commaSeparated (texts (second :: others))).toList) :
    ReadsAs (SpellsSomeArguments · (first :: second :: others))
      (commaSeparated (texts (first :: second :: others))).toList := by
  rw [texts, texts, toList_commaSeparated, ← texts]
  have hcomma (chars : List Char) : EndsBefore (",".toList ++ chars) := endsBefore_cons (by decide)
  refine (hfirst.append (hothers.behindBlank.behindMark .comma (by decide) (startsAfresh_cons rfl))
    (hcomma _)).mono ?_
  rintro _ ⟨before, _, hbefore, ⟨_, after, ⟨_, rfl⟩, hafter, rfl⟩, rfl⟩
  exact .more (spells_of_atom hbefore) rfl hafter

theorem readsAs_noArguments :
    ReadsAs (SpellsArguments · []) (commaSeparated (texts [])).toList :=
  readsAs_nil.mono fun _ hnil => hnil ▸ .none

mutual

theorem readsAs_text : (expression : Expr) → expression.isWritable = true →
    ReadsAs (SpellsAtom · expression) expression.text.toList
  | .int _, hwritable => readsAs_int (of_decide_eq_true hwritable)
  | .bool value, _ => readsAs_bool value
  | .var _, hwritable => readsAs_var hwritable
  | .unary operator operand, hwritable => by
      simp only [isWritable, Bool.and_eq_true, List.contains_iff_mem] at hwritable
      exact readsAs_unary hwritable.1 hwritable.2 (readsAs_text operand hwritable.2)
  | .binary operator left right, hwritable => by
      simp only [isWritable, Bool.and_eq_true, List.contains_iff_mem] at hwritable
      exact readsAs_binary hwritable.1.1 hwritable.1.2 (readsAs_text left hwritable.1.2)
        (readsAs_text right hwritable.2)
  | .call function arguments, hwritable => by
      simp only [isWritable, Bool.and_eq_true] at hwritable
      exact readsAs_call hwritable.1 (startsAfresh_texts hwritable.2)
        (readsAs_texts arguments hwritable.2)

theorem readsAs_texts : (arguments : List Expr) → areWritable arguments = true →
    ReadsAs (SpellsArguments · arguments) (commaSeparated (texts arguments)).toList
  | [], _ => readsAs_noArguments
  | first :: others, hwritable =>
      (readsAs_someTexts (first :: others) hwritable (List.cons_ne_nil _ _)).mono fun _ => .some

theorem readsAs_someTexts : (arguments : List Expr) → areWritable arguments = true →
    arguments ≠ [] →
    ReadsAs (SpellsSomeArguments · arguments) (commaSeparated (texts arguments)).toList
  | [], _, hne => absurd rfl hne
  | [argument], hwritable, _ => by
      simp only [areWritable, Bool.and_eq_true] at hwritable
      exact readsAs_argument (readsAs_text argument hwritable.1)
  | first :: second :: others, hwritable, _ => by
      rw [areWritable, Bool.and_eq_true] at hwritable
      exact readsAs_arguments (readsAs_text first hwritable.1)
        (readsAs_someTexts (second :: others) hwritable.2 (List.cons_ne_nil _ _))

end

/-! ## Expressions in sources -/

/-- The tokens have texts of their kinds, as those that are read from a source have. -/
def Spelled (tokens : List Token) : Prop :=
  ∀ token ∈ tokens, spells token.kind token.text.toList = true

theorem spelled_cons {token : Token} {tokens : List Token} :
    Spelled (token :: tokens) ↔ spells token.kind token.text.toList = true ∧ Spelled tokens :=
  List.forall_mem_cons

theorem spelled_append {left right : List Token} :
    Spelled (left ++ right) ↔ Spelled left ∧ Spelled right :=
  List.forall_mem_append

/-- If no words are among the kinds, then the texts of these kinds stand in the table of
punctuation. -/
theorem text_mem_of_kind (kinds : Kind → Bool) {texts : List String} {token : Token}
    (htoken : spells token.kind token.text.toList = true) (hkind : kinds token.kind = true)
    (hwords : wordKinds.any kinds = false)
    (htexts : ∀ entry ∈ punctuation, kinds entry.2 = true → String.ofList entry.1 ∈ texts) :
    token.text ∈ texts := by
  rcases word_or_punctuation_of_spells htoken with ⟨hword, -⟩ | hmem
  · exact absurd hkind (List.any_eq_false.1 hwords _ hword)
  · simpa using htexts _ hmem hkind

theorem mem_unaryOperators {token : Token} (htoken : spells token.kind token.text.toList = true)
    (hkind : token.kind = .minus ∨ token.kind = .not) : token.text ∈ unaryOperators :=
  text_mem_of_kind (fun kind => kind = .minus ∨ kind = .not) htoken (decide_eq_true hkind)
    (by decide) (by decide)

theorem mem_binaryOperators {token : Token} {tier : Tier}
    (htoken : spells token.kind token.text.toList = true)
    (htier : tier.includes token.kind = true) : token.text ∈ binaryOperators := by
  refine text_mem_of_kind tier.includes htoken htier ?_ ?_
  · cases tier <;> decide
  · cases tier <;> decide

theorem isWritable_binary {token : Token} {tier : Tier} {left right : Expr}
    (htoken : spells token.kind token.text.toList = true)
    (htier : tier.includes token.kind = true) (hleft : left.isWritable = true)
    (hright : right.isWritable = true) : (binary token.text left right).isWritable = true := by
  simp [isWritable, hleft, hright, mem_binaryOperators htoken htier]

mutual

/-- Whatever spelled tokens derive can be written again. -/
theorem isWritable_of_operation {tier : Tier} {tokens : List Token} {value : Expr} :
    SpellsOperation tier tokens value → Spelled tokens → value.isWritable = true
  | .operand hoperand, htokens => isWritable_of_operand hoperand htokens
  | .chain _ hleft hincludes hright, htokens => by
      rw [spelled_append, spelled_cons] at htokens
      exact isWritable_binary htokens.2.1 hincludes (isWritable_of_operation hleft htokens.1)
        (isWritable_of_operand hright htokens.2.2)
  | .comparison hleft hincludes hright, htokens => by
      rw [spelled_append, spelled_cons] at htokens
      exact isWritable_binary htokens.2.1 hincludes (isWritable_of_operand hleft htokens.1)
        (isWritable_of_operand hright htokens.2.2)

theorem isWritable_of_operand {tier : Tier} {tokens : List Token} {value : Expr} :
    SpellsOperand tier tokens value → Spelled tokens → value.isWritable = true
  | .ofSum hsum, htokens => isWritable_of_operation hsum htokens
  | .ofProduct hproduct, htokens => isWritable_of_operation hproduct htokens
  | .ofAtom hatom, htokens => isWritable_of_atom hatom htokens

theorem isWritable_of_atom {tokens : List Token} {value : Expr} :
    SpellsAtom tokens value → Spelled tokens → value.isWritable = true
  | .parentheses _ hinner _, htokens => by
      rw [spelled_append, spelled_cons] at htokens
      exact isWritable_of_operation hinner htokens.1.2
  | .unary hkind hinner, htokens => by
      rw [spelled_cons] at htokens
      simp [isWritable, mem_unaryOperators htokens.1 hkind, isWritable_of_atom hinner htokens.2]
  | .integer hkind hread, htokens => by
      rw [spelled_cons, hkind] at htokens
      exact decide_eq_true (toInt_nonneg_of_isNumeral htokens.1 hread)
  | .boolean _, _ => rfl
  | .name hkind, htokens => by
      rw [spelled_cons, hkind] at htokens
      exact htokens.1
  | .call hkind _ hinner _, htokens => by
      rw [spelled_append, spelled_cons, spelled_cons, hkind] at htokens
      have hname : isName _ = true := htokens.1.1
      simp [isWritable, hname, areWritable_of_arguments hinner htokens.1.2.2]

theorem areWritable_of_arguments {tokens : List Token} {values : List Expr} :
    SpellsArguments tokens values → Spelled tokens → areWritable values = true
  | .none, _ => rfl
  | .some hsome, htokens => areWritable_of_someArguments hsome htokens

theorem areWritable_of_someArguments {tokens : List Token} {values : List Expr} :
    SpellsSomeArguments tokens values → Spelled tokens → areWritable values = true
  | .one hargument, htokens => by
      simp [areWritable, isWritable_of_operation hargument htokens]
  | .more hargument _ hothers, htokens => by
      rw [spelled_append, spelled_cons] at htokens
      simp [areWritable, isWritable_of_operation hargument htokens.1,
        areWritable_of_someArguments hothers htokens.2.2]

end

/-! ## Reading back -/

/-- The text of an expression that a source can spell is read back as this expression. -/
theorem exists_tokens_of_isWritable {expression : Expr} (hwritable : expression.isWritable = true) :
    ∃ tokens, ofSource expression.text = .ok tokens ∧ ofTokens tokens = .ok expression := by
  obtain ⟨words, hatom, hreads⟩ :=
    readsAs_text expression hwritable .start [] endsBefore_nil
  have hsource := hreads.ofSource
  obtain ⟨others, finish, hothers, hwords, hfinish⟩ := exists_words_of_source hsource
  obtain ⟨rfl, -⟩ := List.append_inj' hothers rfl
  exact ⟨_, hsource, (ofTokens_iff_spells hwords rfl).2 (spells_of_atom hatom)⟩

/-- An expression in a source is one that a source can spell. -/
theorem isWritable_of_source {source : String} {tokens : List Token} {expression : Expr}
    (htokens : ofSource source = .ok tokens) (hparsed : ofTokens tokens = .ok expression) :
    expression.isWritable = true := by
  have hspelled : Spelled tokens := spells_scan htokens
  obtain ⟨words, finish, rfl, hwords, hfinish⟩ := exists_words_of_source htokens
  rw [spelled_append] at hspelled
  exact isWritable_of_operation ((ofTokens_iff_spells hwords hfinish).1 hparsed) hspelled.1

/-- The expressions that sources spell are the ones whose texts are read back, and reading undoes
writing on each of them. -/
theorem reading_undoes_writing :
    (∀ expression : Expr, expression.isWritable = true →
      ∃ tokens, ofSource expression.text = .ok tokens ∧ ofTokens tokens = .ok expression) ∧
    ∀ source tokens, ∀ expression : Expr, ofSource source = .ok tokens →
      ofTokens tokens = .ok expression →
      expression.isWritable = true ∧
        ∃ again, ofSource expression.text = .ok again ∧ ofTokens again = .ok expression := by
  refine ⟨fun _ => exists_tokens_of_isWritable, ?_⟩
  intro source tokens expression htokens hparsed
  have hwritable := isWritable_of_source htokens hparsed
  exact ⟨hwritable, exists_tokens_of_isWritable hwritable⟩

/-- Stacked signs, and a comparison under a remainder. -/
def entangled : Expr :=
  .binary "%" (.unary "-" (.unary "-" (.var "x"))) (.binary "<>" (.call "f" []) (.int 7))

/-- The tokens of a source that spells `entangled` without any blanks. -/
def entangledTokens : List Token :=
  [⟨.minus, "-", ⟨1, 1⟩⟩, ⟨.minus, "-", ⟨1, 2⟩⟩, ⟨.identifier, "x", ⟨1, 3⟩⟩,
    ⟨.modulo, "%", ⟨1, 4⟩⟩, ⟨.leftParenthesis, "(", ⟨1, 5⟩⟩, ⟨.identifier, "f", ⟨1, 6⟩⟩,
    ⟨.leftParenthesis, "(", ⟨1, 7⟩⟩, ⟨.rightParenthesis, ")", ⟨1, 8⟩⟩,
    ⟨.notEqual, "<>", ⟨1, 9⟩⟩, ⟨.integer, "7", ⟨1, 11⟩⟩, ⟨.rightParenthesis, ")", ⟨1, 12⟩⟩,
    ⟨.endOfInput, "", ⟨1, 13⟩⟩]

theorem reading_undoes_writing_entangled :
    entangled.isWritable = true ∧ entangled.text = "(--x % (f() <> 7))" ∧
      (∃ tokens, ofSource entangled.text = .ok tokens ∧ ofTokens tokens = .ok entangled) ∧
      ofSource "--x%(f()<>7)" = .ok entangledTokens ∧ ofTokens entangledTokens = .ok entangled ∧
      entangled.isWritable = true ∧
        ∃ again, ofSource entangled.text = .ok again ∧ ofTokens again = .ok entangled := by
  have hwritable : entangled.isWritable = true := by decide
  have htext : entangled.text = "(--x % (f() <> 7))" := by decide
  have htokens : ofSource "--x%(f()<>7)" = .ok entangledTokens := by cbv
  have hparsed : ofTokens entangledTokens = .ok entangled := by cbv
  exact ⟨hwritable, htext, reading_undoes_writing.1 entangled hwritable, htokens, hparsed,
    reading_undoes_writing.2 _ _ entangled htokens hparsed⟩

end WhileCompiler.Expr
