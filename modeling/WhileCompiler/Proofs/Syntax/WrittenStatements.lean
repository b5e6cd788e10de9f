import WhileCompiler.Proofs.Syntax.FirstFault
import WhileCompiler.Proofs.Syntax.SpelledPrograms
import WhileCompiler.Proofs.Syntax.WrittenExpressions

/-!
# Reading back statements

The text of a statement leaves out the words `then` and `do`.  A condition stands in parentheses
there, so that its end can be seen, and the words can be put back behind it.  What is read then is
the statement that was written, provided that each `else` in it belongs to the nearest `if`: no
braces are added, so a text alone does not tell which `if` was meant.
-/

namespace WhileCompiler.Stmt

open Text Token Parsing

mutual

/-- Whether a source can spell a statement as it stands. -/
def isWritable : Stmt → Bool
  | .empty => false
  | .block body => areWritable body
  | .declaration name type initial =>
    isName name.toList && Ty.ofName? type.text = some type && initial.isWritable
  | .assignment name value => isName name.toList && value.isWritable
  | .conditional condition thenBranch elseBranch =>
    condition.isWritable && thenBranch.isWritable &&
      (elseBranch.isEmpty || elseBranch.isWritable)
  | .loop condition body => condition.isWritable && body.isWritable
  | .expression value => value.isWritable

def areWritable : List Stmt → Bool
  | [] => true
  | first :: rest => first.isWritable && areWritable rest

end

/-! ## The words that are left out -/

/-- The word that a text leaves out behind the condition. -/
def omittedWord? : Token.Kind → Option Token
  | .ifWord => some ⟨.thenWord, "then", .start⟩
  | .whileWord => some ⟨.doWord, "do", .start⟩
  | _ => none

/-- Puts back the words that a text leaves out. -/
def withWords : List Token → List Token
  | [] => []
  | token :: rest =>
    match omittedWord? token.kind with
    | none => token :: withWords rest
    | some word =>
      -- Not an operation: the parentheses end the condition even where a sign begins what follows.
      match Expr.atom token rest with
      | .error _ => token :: withWords rest
      | .ok condition =>
        have := condition.shorter
        let taken := rest.take (rest.length - condition.rest.length)
        token :: taken ++ word :: withWords condition.rest
termination_by tokens => tokens.length

/-- Tokens of an expression in parentheses. -/
def SpellsCondition (tokens : List Token) (condition : Expr) : Prop :=
  ∃ opening inner closing, opening.kind = .leftParenthesis ∧ Expr.Spells inner condition ∧
    closing.kind = .rightParenthesis ∧ tokens = opening :: inner ++ [closing]

theorem SpellsCondition.spells {tokens : List Token} {condition : Expr}
    (hcondition : SpellsCondition tokens condition) : Expr.Spells tokens condition := by
  obtain ⟨opening, inner, closing, hopening, hinner, hclosing, rfl⟩ := hcondition
  have hatom := Expr.SpellsAtom.parentheses hopening hinner hclosing
  exact Expr.spells_of_atom hatom

/-- Parentheses show where an expression ends, whatever follows. -/
theorem SpellsCondition.takes {tokens : List Token} {condition : Expr}
    (hcondition : SpellsCondition tokens condition) (finish : Token) (rest : List Token) :
    Takes (Expr.atom finish) (tokens ++ rest) condition rest := by
  obtain ⟨opening, inner, closing, hopening, hinner, hclosing, rfl⟩ := hcondition
  have hclear : Clear (Expr.Tier.prolongs .comparison) (closing :: rest) :=
    clear_cons (by rw [hclosing]; rfl)
  have htaken := (Expr.accepts_of_spells finish hinner).taken (closing :: rest) hclear
  rw [List.append_assoc]
  exact Expr.takes_parentheses hopening htaken hclosing

theorem withWords_plain {token : Token} (htoken : omittedWord? token.kind = none)
    (rest : List Token) : withWords (token :: rest) = token :: withWords rest := by
  rw [withWords, htoken]

theorem withWords_condition {token word : Token} {tokens : List Token} {condition : Expr}
    (htoken : omittedWord? token.kind = some word) (hcondition : SpellsCondition tokens condition)
    (rest : List Token) :
    withWords (token :: tokens ++ rest) = token :: tokens ++ word :: withWords rest := by
  obtain ⟨hshorter, htaken⟩ := hcondition.takes token rest
  rw [List.cons_append, withWords, htoken]
  simp only [htaken, List.length_append, Nat.add_sub_cancel, List.take_left]

/-- Putting back the words turns some tokens into others, whatever follows them. -/
def Restores (tokens full : List Token) : Prop :=
  ∀ rest, withWords (tokens ++ rest) = full ++ withWords rest

theorem restores_nil : Restores [] [] :=
  fun _ => rfl

theorem Restores.append {tokens others full otherFull : List Token}
    (htokens : Restores tokens full) (hothers : Restores others otherFull) :
    Restores (tokens ++ others) (full ++ otherFull) := by
  intro rest
  rw [List.append_assoc, htokens, hothers, List.append_assoc]

theorem restores_plain {tokens : List Token}
    (htokens : ∀ token ∈ tokens, omittedWord? token.kind = none) : Restores tokens tokens := by
  induction tokens with
  | nil => exact restores_nil
  | cons token others ih =>
      obtain ⟨htoken, hothers⟩ := List.forall_mem_cons.1 htokens
      intro rest
      rw [List.cons_append, withWords_plain htoken, ih hothers, List.cons_append]

theorem restores_condition {token word : Token} {tokens : List Token} {condition : Expr}
    (htoken : omittedWord? token.kind = some word)
    (hcondition : SpellsCondition tokens condition) :
    Restores (token :: tokens) (token :: tokens ++ [word]) := by
  intro rest
  rw [withWords_condition htoken hcondition, List.append_assoc, List.singleton_append]

/-- No word is left out within an expression. -/
theorem omittedWord?_of_uses {kind : Token.Kind} (hkind : Expr.uses kind = true) :
    omittedWord? kind = none := by
  have hall : ∀ kind ∈ Kind.all, Expr.uses kind = true → omittedWord? kind = none := by decide
  exact hall kind (Kind.mem_all kind) hkind

/-! ## Each form of a statement -/

/-- Tokens that spell a statement but for the words that its text leaves out. -/
def SpellsBriefly (statement : Stmt) (tokens : List Token) : Prop :=
  ∃ full, Spells full statement ∧ Restores tokens full

def SpellsBodyBriefly (body : List Stmt) (tokens : List Token) : Prop :=
  ∃ full, SpellsBody full body ∧ Restores tokens full

/-- Nothing is left out of a statement that has no condition. -/
theorem spellsBriefly_of_plain {statement : Stmt} {expression : Expr}
    {before value : List Token} {closing : Token}
    (hspells : Spells (before ++ value ++ [closing]) statement)
    (hbefore : ∀ token ∈ before, omittedWord? token.kind = none)
    (hvalue : Expr.Spells value expression) (hclosing : omittedWord? closing.kind = none) :
    SpellsBriefly statement (before ++ value ++ [closing]) := by
  have hplain : ∀ token ∈ value, omittedWord? token.kind = none := fun token hmem =>
    omittedWord?_of_uses (Expr.uses_of_operation hvalue token hmem)
  have hrestores := (restores_plain hbefore).append (restores_plain hplain)
  exact ⟨_, hspells, hrestores.append (restores_plain (List.forall_mem_singleton.2 hclosing))⟩

/-- An expression and the semicolon behind it. -/
theorem readsAs_value {value : Expr} (hvalue : value.isWritable = true) :
    ReadsAs (Followed (Expr.Spells · value) (IsToken .semicolon ";"))
      (value.text.toList ++ ";".toList) := by
  have hreads := (Expr.readsAs_text value hvalue).mono fun _ => Expr.spells_of_atom
  exact hreads.closedBy .semicolon (by decide) (by decide) (endsBefore_cons (by decide))

theorem readsAs_expression {value : Expr} (hvalue : value.isWritable = true) :
    ReadsAs (SpellsBriefly (.expression value)) (text (.expression value)).toList := by
  have htext : (text (.expression value)).toList = value.text.toList ++ ";".toList := by
    simp [text, toString, String.toList_append]
  rw [htext]
  apply (readsAs_value hvalue).mono
  rintro _ ⟨tokens, _, hspells, ⟨position, rfl⟩, rfl⟩
  have hstatement : Spells ([] ++ tokens ++ [⟨.semicolon, ";", position⟩]) (.expression value) :=
    .expression hspells rfl
  exact spellsBriefly_of_plain hstatement nofun hspells rfl

theorem readsAs_assignment {name : String} {value : Expr} (hname : isName name.toList = true)
    (hvalue : value.isWritable = true) :
    ReadsAs (SpellsBriefly (.assignment name value)) (text (.assignment name value)).toList := by
  have htext : (text (.assignment name value)).toList =
      name.toList ++ ' ' :: (":=".toList ++ ' ' :: (value.text.toList ++ ";".toList)) := by
    simp [text, toString, String.toList_append]
  have hassign : ReadsAs (IsToken .assign ":=") ":=".toList :=
    readsAs_word .assign (by decide) (by decide)
  rw [htext]
  apply ((readsAs_word .identifier hname (by decide)).spaced
    (hassign.spaced (readsAs_value hvalue))).mono
  rintro _ ⟨_, _, ⟨first, rfl⟩, ⟨_, _, ⟨second, rfl⟩, ⟨tokens, _, hspells, ⟨last, rfl⟩, rfl⟩, rfl⟩,
    rfl⟩
  let front : List Token := [⟨.identifier, name, first⟩, ⟨.assign, ":=", second⟩]
  have hstatement : Spells (front ++ tokens ++ [⟨.semicolon, ";", last⟩]) (.assignment name value) :=
    .assignment rfl rfl hspells rfl
  have hfront : ∀ token ∈ front, omittedWord? token.kind = none := by simp [front, omittedWord?]
  exact spellsBriefly_of_plain hstatement hfront hspells rfl

theorem isName_of_type {type : Ty} (htype : Ty.ofName? type.text = some type) :
    isName type.text.toList = true := by
  rcases Ty.of_ofName? htype with rfl | rfl
  · decide
  · decide

theorem readsAs_declaration {name : String} {type : Ty} {initial : Expr}
    (hname : isName name.toList = true) (htype : Ty.ofName? type.text = some type)
    (hinitial : initial.isWritable = true) :
    ReadsAs (SpellsBriefly (.declaration name type initial))
      (text (.declaration name type initial)).toList := by
  have htext : (text (.declaration name type initial)).toList =
      name.toList ++ ' ' :: (":".toList ++ ' ' :: (type.text.toList ++ ' ' ::
        (":=".toList ++ ' ' :: (initial.text.toList ++ ";".toList)))) := by
    simp [text, toString, String.toList_append]
  have hcolon : ReadsAs (IsToken .colon ":") ":".toList :=
    readsAs_word .colon (by decide) (by decide)
  have hassign : ReadsAs (IsToken .assign ":=") ":=".toList :=
    readsAs_word .assign (by decide) (by decide)
  have htypeName := readsAs_word .identifier (isName_of_type htype) (by decide)
  rw [htext]
  apply ((readsAs_word .identifier hname (by decide)).spaced
    (hcolon.spaced (htypeName.spaced (hassign.spaced (readsAs_value hinitial))))).mono
  rintro _ ⟨_, _, ⟨first, rfl⟩, ⟨_, _, ⟨second, rfl⟩, ⟨_, _, ⟨third, rfl⟩, ⟨_, _, ⟨fourth, rfl⟩,
    ⟨tokens, _, hspells, ⟨last, rfl⟩, rfl⟩, rfl⟩, rfl⟩, rfl⟩, rfl⟩
  let front : List Token := [⟨.identifier, name, first⟩, ⟨.colon, ":", second⟩,
    ⟨.identifier, type.text, third⟩, ⟨.assign, ":=", fourth⟩]
  have hstatement : Spells (front ++ tokens ++ [⟨.semicolon, ";", last⟩])
      (.declaration name type initial) :=
    .declaration rfl rfl rfl htype rfl hspells rfl
  have hfront : ∀ token ∈ front, omittedWord? token.kind = none := by simp [front, omittedWord?]
  exact spellsBriefly_of_plain hstatement hfront hspells rfl

/-- Tokens of a word and a condition, behind which another word is left out. -/
def SpellsGuard (kind omitted : Kind) (condition : Expr) (tokens : List Token) : Prop :=
  ∃ first test last, first.kind = kind ∧ Expr.Spells test condition ∧ last.kind = omitted ∧
    Restores tokens (first :: test ++ [last])

theorem readsAs_condition {condition : Expr} (hcondition : condition.isWritable = true) :
    ReadsAs (SpellsCondition · condition)
      ("(".toList ++ (condition.text.toList ++ ")".toList)) := by
  have hclosed := Expr.readsAs_closed (Expr.readsAs_text condition hcondition)
  have hstarts : StartsAfresh (condition.text.toList ++ ")".toList) :=
    (Expr.startsAfresh_text hcondition).append (startsAfresh_cons rfl)
  apply (hclosed.behindMark .leftParenthesis (by decide) hstarts).mono
  rintro _ ⟨_, _, ⟨opened, rfl⟩, ⟨inner, _, hatom, ⟨closed, rfl⟩, rfl⟩, rfl⟩
  exact ⟨_, inner, _, rfl, Expr.spells_of_atom hatom, rfl, rfl⟩

theorem readsAs_guard {kind : Kind} {word : String} {omitted : Token} {condition : Expr}
    (hword : spells kind word.toList = true) (homitted : omittedWord? kind = some omitted)
    (hcondition : condition.isWritable = true) :
    ReadsAs (SpellsGuard kind omitted.kind condition)
      (word.toList ++ ' ' :: ("(".toList ++ (condition.text.toList ++ ")".toList))) := by
  have hkind : kind ≠ .endOfInput := by
    rintro rfl
    cases homitted
  apply ((readsAs_word kind hword hkind).spaced (readsAs_condition hcondition)).mono
  rintro _ ⟨_, test, ⟨position, rfl⟩, htest, rfl⟩
  exact ⟨_, test, omitted, rfl, htest.spells, rfl, restores_condition homitted htest⟩

theorem readsAs_loop {condition : Expr} {body : Stmt} (hcondition : condition.isWritable = true)
    (hbody : ReadsAs (SpellsBriefly body) body.text.toList) :
    ReadsAs (SpellsBriefly (.loop condition body)) (text (.loop condition body)).toList := by
  have htext : (text (.loop condition body)).toList =
      ("while".toList ++ ' ' :: ("(".toList ++ (condition.text.toList ++ ")".toList))) ++
        ' ' :: body.text.toList := by
    simp [text, toString, String.toList_append]
  have hword : spells .whileWord "while".toList = true := by decide
  have hguard : ReadsAs (SpellsGuard .whileWord .doWord condition) _ :=
    readsAs_guard hword rfl hcondition
  rw [htext]
  apply (hguard.spaced hbody).mono
  rintro _ ⟨_, _, ⟨whileWord, test, doWord, hwhile, htest, hdo, hrestored⟩,
    ⟨inner, hinner, hrestores⟩, rfl⟩
  refine ⟨_, ?_, hrestored.append hrestores⟩
  rw [List.append_assoc, List.singleton_append]
  exact .loop hwhile htest hdo hinner

theorem readsAs_ifGuard {condition : Expr} (hcondition : condition.isWritable = true) :
    ReadsAs (SpellsGuard .ifWord .thenWord condition)
      ("if".toList ++ ' ' :: ("(".toList ++ (condition.text.toList ++ ")".toList))) := by
  have hword : spells .ifWord "if".toList = true := by decide
  exact readsAs_guard hword rfl hcondition

theorem readsAs_ifThen {condition : Expr} {thenBranch : Stmt}
    (hcondition : condition.isWritable = true)
    (hthen : ReadsAs (SpellsBriefly thenBranch) thenBranch.text.toList) :
    ReadsAs (SpellsBriefly (.conditional condition thenBranch .empty))
      (text (.conditional condition thenBranch .empty)).toList := by
  have htext : (text (.conditional condition thenBranch .empty)).toList =
      ("if".toList ++ ' ' :: ("(".toList ++ (condition.text.toList ++ ")".toList))) ++
        ' ' :: thenBranch.text.toList := by
    simp [text, toString, String.toList_append, isEmpty]
  have hguard := readsAs_ifGuard hcondition
  rw [htext]
  apply (hguard.spaced hthen).mono
  rintro _ ⟨_, _, ⟨ifWord, test, thenWord, hif, htest, hthenWord, hrestored⟩,
    ⟨inner, hinner, hrestores⟩, rfl⟩
  refine ⟨_, ?_, hrestored.append hrestores⟩
  rw [List.append_assoc, List.singleton_append]
  exact .ifThen hif htest hthenWord hinner

theorem readsAs_ifThenElse {condition : Expr} {thenBranch elseBranch : Stmt}
    (hcondition : condition.isWritable = true) (hempty : elseBranch.isEmpty = false)
    (hthen : ReadsAs (SpellsBriefly thenBranch) thenBranch.text.toList)
    (helse : ReadsAs (SpellsBriefly elseBranch) elseBranch.text.toList) :
    ReadsAs (SpellsBriefly (.conditional condition thenBranch elseBranch))
      (text (.conditional condition thenBranch elseBranch)).toList := by
  have htext : (text (.conditional condition thenBranch elseBranch)).toList =
      ("if".toList ++ ' ' :: ("(".toList ++ (condition.text.toList ++ ")".toList))) ++
        ' ' :: (thenBranch.text.toList ++ ' ' :: ("else".toList ++ ' ' ::
          elseBranch.text.toList)) := by
    simp [text, toString, String.toList_append, hempty]
  have hguard := readsAs_ifGuard hcondition
  have helseWord : ReadsAs (IsToken .elseWord "else") "else".toList :=
    readsAs_word .elseWord (by decide) (by decide)
  rw [htext]
  apply (hguard.spaced (hthen.spaced (helseWord.spaced helse))).mono
  rintro _ ⟨_, _, ⟨ifWord, test, thenWord, hif, htest, hthenWord, hrestored⟩,
    ⟨_, _, ⟨inner, hinner, hrestores⟩, ⟨_, _, ⟨position, rfl⟩, ⟨other, hother, hrestoresOther⟩,
      rfl⟩, rfl⟩, rfl⟩
  have hword : Restores [⟨.elseWord, "else", position⟩] _ :=
    restores_plain (List.forall_mem_singleton.2 rfl)
  refine ⟨_, ?_, hrestored.append (hrestores.append (hword.append hrestoresOther))⟩
  rw [List.append_assoc, List.singleton_append, List.singleton_append, ← List.cons_append,
    ← List.append_assoc]
  exact .ifThenElse hif htest hthenWord hinner rfl hother

theorem endsBefore_bodyText (body : List Stmt) : EndsBefore (bodyText body).toList := by
  cases body with
  | nil => exact endsBefore_nil
  | cons first rest =>
      rw [bodyText, String.toList_append, String.toList_append]
      exact endsBefore_space

theorem readsAs_block {body : List Stmt}
    (hbody : ReadsAs (SpellsBodyBriefly body) (bodyText body).toList) :
    ReadsAs (SpellsBriefly (.block body)) (text (.block body)).toList := by
  have htext : (text (.block body)).toList =
      "\x7b".toList ++ ((bodyText body).toList ++ ' ' :: "\x7d".toList) := by
    simp [text, String.toList_append]
  have hclosing : ReadsAs (IsToken .rightBrace "\x7d") "\x7d".toList :=
    readsAs_word .rightBrace (by decide) (by decide)
  have hstarts : StartsAfresh ((bodyText body).toList ++ ' ' :: "\x7d".toList) :=
    ((endsBefore_bodyText body).append endsBefore_space).startsAfresh
  rw [htext]
  apply ((hbody.spaced hclosing).behindMark .leftBrace (by decide) hstarts).mono
  rintro _ ⟨_, _, ⟨opened, rfl⟩, ⟨tokens, _, ⟨inner, hinner, hrestores⟩, ⟨closed, rfl⟩, rfl⟩, rfl⟩
  have hopening : Restores [⟨.leftBrace, "\x7b", opened⟩] _ :=
    restores_plain (List.forall_mem_singleton.2 rfl)
  have hclosing : Restores [⟨.rightBrace, "\x7d", closed⟩] _ :=
    restores_plain (List.forall_mem_singleton.2 rfl)
  exact ⟨_, .block rfl hinner rfl, (hopening.append hrestores).append hclosing⟩

theorem readsAs_body {first : Stmt} {rest : List Stmt}
    (hfirst : ReadsAs (SpellsBriefly first) first.text.toList)
    (hrest : ReadsAs (SpellsBodyBriefly rest) (bodyText rest).toList) :
    ReadsAs (SpellsBodyBriefly (first :: rest)) (bodyText (first :: rest)).toList := by
  have htext : (bodyText (first :: rest)).toList =
      ' ' :: (first.text.toList ++ (bodyText rest).toList) := by
    simp [bodyText, String.toList_append]
  rw [htext]
  apply (hfirst.append hrest (endsBefore_bodyText rest)).behindBlank.mono
  rintro _ ⟨_, _, ⟨full, hspells, hrestores⟩, ⟨others, hspellsOthers, hrestoresOthers⟩, rfl⟩
  exact ⟨_, .cons hspells hspellsOthers, hrestores.append hrestoresOthers⟩

mutual

theorem readsAs_text : (statement : Stmt) → statement.isWritable = true →
    ReadsAs (SpellsBriefly statement) statement.text.toList
  | .block body, hwritable => readsAs_block (readsAs_bodyText body hwritable)
  | .declaration _ _ _, hwritable => by
      simp only [isWritable, Bool.and_eq_true, decide_eq_true_eq] at hwritable
      exact readsAs_declaration hwritable.1.1 hwritable.1.2 hwritable.2
  | .assignment _ _, hwritable => by
      simp only [isWritable, Bool.and_eq_true] at hwritable
      exact readsAs_assignment hwritable.1 hwritable.2
  | .conditional _ thenBranch elseBranch, hwritable => by
      simp only [isWritable, Bool.and_eq_true, Bool.or_eq_true] at hwritable
      obtain ⟨⟨hcondition, hthen⟩, helse⟩ := hwritable
      cases hempty : elseBranch.isEmpty with
      | true =>
          rw [eq_empty_of_isEmpty hempty]
          exact readsAs_ifThen hcondition (readsAs_text thenBranch hthen)
      | false =>
          have hwritten : elseBranch.isWritable = true := by simpa [hempty] using helse
          exact readsAs_ifThenElse hcondition hempty (readsAs_text thenBranch hthen)
            (readsAs_text elseBranch hwritten)
  | .loop _ body, hwritable => by
      simp only [isWritable, Bool.and_eq_true] at hwritable
      exact readsAs_loop hwritable.1 (readsAs_text body hwritable.2)
  | .expression _, hwritable => readsAs_expression hwritable

theorem readsAs_bodyText : (body : List Stmt) → areWritable body = true →
    ReadsAs (SpellsBodyBriefly body) (bodyText body).toList
  | [], _ => readsAs_nil.mono fun _ hnil => ⟨[], .nil, hnil ▸ restores_nil⟩
  | first :: rest, hwritable => by
      rw [areWritable, Bool.and_eq_true] at hwritable
      exact readsAs_body (readsAs_text first hwritable.1) (readsAs_bodyText rest hwritable.2)

end

/-! ## Statements in sources -/

mutual

/-- Whatever spelled tokens derive can be written again. -/
theorem isWritable_of_spells {tokens : List Token} {statement : Stmt} :
    Spells tokens statement → Expr.Spelled tokens → statement.isWritable = true
  | .block _ hbody _, htokens => by
      rw [Expr.spelled_append, Expr.spelled_cons] at htokens
      exact areWritable_of_body hbody htokens.1.2
  | .loop _ htest _ hinner, htokens => by
      rw [Expr.spelled_append, Expr.spelled_cons, Expr.spelled_cons] at htokens
      simp [isWritable, Expr.isWritable_of_operation htest htokens.1.2,
        isWritable_of_spells hinner htokens.2.2]
  | .ifThen _ htest _ hinner, htokens => by
      rw [Expr.spelled_append, Expr.spelled_cons, Expr.spelled_cons] at htokens
      simp [isWritable, isEmpty, Expr.isWritable_of_operation htest htokens.1.2,
        isWritable_of_spells hinner htokens.2.2]
  | .ifThenElse _ htest _ hinner _ hother, htokens => by
      rw [Expr.spelled_append, Expr.spelled_append, Expr.spelled_cons, Expr.spelled_cons,
        Expr.spelled_cons] at htokens
      simp [isWritable, Expr.isWritable_of_operation htest htokens.1.1.2,
        isWritable_of_spells hinner htokens.1.2.2, isWritable_of_spells hother htokens.2.2]
  | .declaration hname _ _ htype _ hvalue _, htokens => by
      rw [Expr.spelled_append, Expr.spelled_cons, Expr.spelled_cons, Expr.spelled_cons,
        Expr.spelled_cons, hname] at htokens
      have hwritten : isName _ = true := htokens.1.1
      simp [isWritable, hwritten, Ty.ofName?_text htype,
        Expr.isWritable_of_operation hvalue htokens.1.2.2.2.2]
  | .assignment hname _ hvalue _, htokens => by
      rw [Expr.spelled_append, Expr.spelled_cons, Expr.spelled_cons, hname] at htokens
      have hwritten : isName _ = true := htokens.1.1
      simp [isWritable, hwritten, Expr.isWritable_of_operation hvalue htokens.1.2.2]
  | .expression hvalue _, htokens => by
      rw [Expr.spelled_append] at htokens
      exact Expr.isWritable_of_operation hvalue htokens.1

theorem areWritable_of_body {tokens : List Token} {body : List Stmt} :
    SpellsBody tokens body → Expr.Spelled tokens → areWritable body = true
  | .nil, _ => rfl
  | .cons hfirst hrest, htokens => by
      rw [Expr.spelled_append] at htokens
      simp [areWritable, isWritable_of_spells hfirst htokens.1,
        areWritable_of_body hrest htokens.2]

end

/-- A program in a source is one that a source can spell, with each `else` at the nearest `if`. -/
theorem isWritable_of_parse {source : String} {program : Stmt}
    (hparse : Compiler.parse source = .ok program) :
    program.isWritable = true ∧ program.nearestElse = true := by
  obtain ⟨tokens, htokens, hparsed⟩ := exists_tokens_of_parse hparse
  have hspelled : Expr.Spelled tokens := spells_scan htokens
  obtain ⟨words, finish, rfl, hwords, hfinish⟩ := exists_words_of_source htokens
  obtain ⟨hspells, hnearest⟩ := (ofTokens_iff_spells hwords hfinish).1 hparsed
  rw [Expr.spelled_append] at hspelled
  exact ⟨isWritable_of_spells hspells hspelled.1, hnearest⟩

/-! ## Reading back -/

/-- The text of a statement that a source can spell is read back as this statement, once the words
are put back, if each `else` in it belongs to the nearest `if`. -/
theorem exists_tokens_of_isWritable {statement : Stmt} (hwritable : statement.isWritable = true)
    (hnearest : statement.nearestElse = true) :
    ∃ tokens, ofSource statement.text = .ok tokens ∧
      ofTokens (withWords tokens) = .ok statement := by
  obtain ⟨tokens, ⟨full, hspells, hrestores⟩, hreads⟩ :=
    readsAs_text statement hwritable .start [] endsBefore_nil
  refine ⟨_, hreads.ofSource, ?_⟩
  rw [hrestores, withWords_plain rfl, withWords]
  exact (ofTokens_iff_spells (ne_endOfInput_of_spells hspells) rfl).2 ⟨hspells, hnearest⟩

/-- Programs that were parsed have different texts unless they are the same. -/
theorem text_injective_of_parse (leftSource rightSource : String) (left right : Stmt)
    (hleft : Compiler.parse leftSource = .ok left)
    (hright : Compiler.parse rightSource = .ok right) (htext : left.text = right.text) :
    left = right := by
  obtain ⟨hwritableLeft, hnearestLeft⟩ := isWritable_of_parse hleft
  obtain ⟨hwritableRight, hnearestRight⟩ := isWritable_of_parse hright
  obtain ⟨tokens, htokens, hreadLeft⟩ := exists_tokens_of_isWritable hwritableLeft hnearestLeft
  obtain ⟨others, hothers, hreadRight⟩ := exists_tokens_of_isWritable hwritableRight hnearestRight
  have hsame : tokens = others := by
    rw [htext, hothers] at htokens
    exact (Except.ok.inj htokens).symm
  rw [hsame, hreadRight] at hreadLeft
  exact (Except.ok.inj hreadLeft).symm

theorem text_injective_of_parse_danglingElse :
    ∃ left right, Compiler.parse "if a then if b < 1 then \x7b\x7d else d;" = .ok left ∧
      Compiler.parse "if (a) then\n  if ((b)<(1)) then \x7b\x7d\n  else (d);" = .ok right ∧
      left.text = right.text ∧ left = right := by
  let program : Stmt :=
    .conditional (.var "a")
      (.conditional (.binary "<" (.var "b") (.int 1)) (.block []) (.expression (.var "d"))) .empty
  have hleft : Compiler.parse "if a then if b < 1 then \x7b\x7d else d;" = .ok program := by cbv
  have hright : Compiler.parse "if (a) then\n  if ((b)<(1)) then \x7b\x7d\n  else (d);" =
      .ok program := by cbv
  exact ⟨program, program, hleft, hright, rfl,
    text_injective_of_parse _ _ program program hleft hright rfl⟩

end WhileCompiler.Stmt
