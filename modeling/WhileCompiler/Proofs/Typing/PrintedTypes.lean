import WhileCompiler.Proofs.Typing.Verdicts

/-!
# Printed types

A function type is printed without parentheses around it, wherever it stands.  Its text can still be
read in one way only, since no text of a type begins another one: the parameters stand between
parentheses, and behind each of them stands a comma or the parenthesis that closes the list.  A
message that sets two types against each other therefore shows two texts.
-/

namespace WhileCompiler

namespace Ty

open Text

/-! ## How a text begins -/

/-- The character that the text of a type begins with. -/
def initial : Ty → Char
  | .int => 'i'
  | .bool => 'b'
  | .void => 'v'
  | .function _ _ => '('

/-- The texts behind the first parameter, up to the parenthesis that closes the list. -/
def furtherText : List Ty → List Char
  | [] => [')']
  | next :: rest => ',' :: ' ' :: (next.text.toList ++ furtherText rest)

/-- The texts of all parameters, up to the parenthesis that closes the list. -/
def parametersText : List Ty → List Char
  | [] => [')']
  | first :: rest => first.text.toList ++ furtherText rest

theorem toList_commaSeparated_texts (parameters : List Ty) :
    (commaSeparated (texts parameters)).toList ++ [')'] = parametersText parameters := by
  cases parameters with
  | nil => rfl
  | cons first rest =>
      rw [parametersText]
      induction rest generalizing first with
      | nil => simp [texts, commaSeparated, furtherText]
      | cons next rest ih =>
          rw [furtherText, ← ih next]
          simp [texts, commaSeparated, String.intercalate_cons_cons, String.toList_append]

theorem toList_text_function (parameters : List Ty) (result : Ty) :
    (function parameters result).text.toList =
      '(' :: (parametersText parameters ++ (" -> ".toList ++ result.text.toList)) := by
  rw [← toList_commaSeparated_texts]
  simp [text, toString, String.toList_append]

theorem head?_text (type : Ty) : type.text.toList.head? = some type.initial := by
  cases type with
  | int => rfl
  | bool => rfl
  | void => rfl
  | function parameters result =>
      rw [toList_text_function]
      rfl

theorem head?_text_append (type : Ty) (rest : List Char) :
    (type.text.toList ++ rest).head? = some type.initial := by
  rw [List.head?_append, head?_text, Option.some_or]

/-! ## How a text ends -/

/-- Types whose texts begin the same list begin alike. -/
theorem initial_eq_of_append {left right : Ty} {rest rest' : List Char}
    (heq : left.text.toList ++ rest = right.text.toList ++ rest') :
    left.initial = right.initial := by
  have hhead := congrArg List.head? heq
  rw [head?_text_append, head?_text_append] at hhead
  exact Option.some.inj hhead

/-- No type begins with the end of a list of parameters. -/
theorem text_append_ne_closing (type : Ty) (rest rest' : List Char) :
    type.text.toList ++ rest ≠ ')' :: rest' := by
  intro heq
  have hhead := congrArg List.head? heq
  rw [head?_text_append, List.head?_cons, Option.some.injEq] at hhead
  cases type <;> simp [initial] at hhead

mutual

/-- The text of a type shows where it ends, whatever stands behind it. -/
theorem text_append_inj {left right : Ty} {rest rest' : List Char}
    (heq : left.text.toList ++ rest = right.text.toList ++ rest') :
    left = right ∧ rest = rest' := by
  have hinitial := initial_eq_of_append heq
  cases left with
  | int =>
      cases right with
      | int => exact ⟨rfl, List.append_cancel_left heq⟩
      | bool | void | function parameters result => simp [initial] at hinitial
  | bool =>
      cases right with
      | bool => exact ⟨rfl, List.append_cancel_left heq⟩
      | int | void | function parameters result => simp [initial] at hinitial
  | void =>
      cases right with
      | void => exact ⟨rfl, List.append_cancel_left heq⟩
      | int | bool | function parameters result => simp [initial] at hinitial
  | function parameters result =>
      cases right with
      | int | bool | void => simp [initial] at hinitial
      | function parameters' result' =>
          simp only [toList_text_function, List.cons_append, List.append_assoc] at heq
          obtain ⟨rfl, harrow⟩ := parametersText_append_inj (List.cons.inj heq).2
          obtain ⟨rfl, hrest⟩ := text_append_inj (List.append_cancel_left harrow)
          exact ⟨rfl, hrest⟩

theorem parametersText_append_inj {left right : List Ty} {rest rest' : List Char}
    (heq : parametersText left ++ rest = parametersText right ++ rest') :
    left = right ∧ rest = rest' := by
  cases left with
  | nil =>
      cases right with
      | nil => exact ⟨rfl, List.append_cancel_left heq⟩
      | cons first others =>
          simp only [parametersText, List.append_assoc] at heq
          exact absurd heq.symm (text_append_ne_closing first _ _)
  | cons first others =>
      cases right with
      | nil =>
          simp only [parametersText, List.append_assoc] at heq
          exact absurd heq (text_append_ne_closing first _ _)
      | cons first' others' =>
          simp only [parametersText, List.append_assoc] at heq
          obtain ⟨rfl, hfurther⟩ := text_append_inj heq
          obtain ⟨rfl, hrest⟩ := furtherText_append_inj hfurther
          exact ⟨rfl, hrest⟩

theorem furtherText_append_inj {left right : List Ty} {rest rest' : List Char}
    (heq : furtherText left ++ rest = furtherText right ++ rest') :
    left = right ∧ rest = rest' := by
  cases left with
  | nil =>
      cases right with
      | nil => exact ⟨rfl, List.append_cancel_left heq⟩
      | cons next others => simp [furtherText] at heq
  | cons next others =>
      cases right with
      | nil => simp [furtherText] at heq
      | cons next' others' =>
          simp only [furtherText, List.cons_append, List.append_assoc] at heq
          obtain ⟨rfl, hfurther⟩ := text_append_inj (List.cons.inj (List.cons.inj heq).2).2
          obtain ⟨rfl, hrest⟩ := furtherText_append_inj hfurther
          exact ⟨rfl, hrest⟩

end

theorem text_injective : Function.Injective text := by
  intro left right heq
  have happend : left.text.toList ++ [] = right.text.toList ++ [] := by rw [heq]
  exact (text_append_inj happend).1

end Ty

/-! ## Messages -/

namespace TypeError

/-- The types that a message sets against each other, in the order in which it shows them.  What is
found as a condition is set against the type of truth values. -/
def compared? : TypeError → Option (Ty × Ty)
  | badAssignment _ expected found => some (found, expected)
  | badIfCondition found | badLoopCondition found => some (found, .bool)
  | badArgument _ _ expected found => some (expected, found)
  | alreadyDeclared _ | badInitialValue _ _ | undeclaredTarget _ | unknownVariable _
  | notCallable _ | wrongCount _ _ _ => none

/-- The message shows both types. -/
theorem exists_message_eq {error : TypeError} {first second : Ty}
    (hcompared : error.compared? = some (first, second)) :
    ∃ before between behind : String,
      error.message = before ++ first.text ++ between ++ second.text ++ behind := by
  have hplain (text : String) : toString text = text := rfl
  cases error with
  | badAssignment name expected found =>
      cases hcompared
      refine ⟨"Cannot assign ", " to '" ++ name ++ "' (of type ", ")", ?_⟩
      change s!"Cannot assign {first.text} to '{name}' (of type {second.text})" = _
      simp only [hplain, String.append_assoc]
  | badIfCondition found =>
      cases hcompared
      refine ⟨"If condition was ", " instead of ", "", ?_⟩
      change s!"If condition was {first.text} instead of bool" = _
      simp only [hplain, String.append_assoc]
      rfl
  | badLoopCondition found =>
      cases hcompared
      refine ⟨"While loop condition was ", " instead of ", "", ?_⟩
      change s!"While loop condition was {first.text} instead of bool" = _
      simp only [hplain, String.append_assoc]
      rfl
  | badArgument name number expected found =>
      cases hcompared
      refine ⟨s!"{name} argument {number} expects ", " but ", " given", ?_⟩
      change s!"{name} argument {number} expects {first.text} but {second.text} given" = _
      simp only [hplain, String.append_assoc]
  | alreadyDeclared _ | badInitialValue _ _ | undeclaredTarget _ | unknownVariable _
  | notCallable _ | wrongCount _ _ _ => cases hcompared

/-- The types that the message sets against each other, if it does so, are different ones. -/
def TellsApart (error : TypeError) : Prop :=
  ∀ first second, error.compared? = some (first, second) → first ≠ second

/-- A message that shows one type, or none, has nothing to tell apart. -/
theorem tellsApart_of_compared?_eq_none {error : TypeError} (hcompared : error.compared? = none) :
    error.TellsApart := by
  intro first second hsome
  rw [hcompared] at hsome
  cases hsome

theorem tellsApart_of_ne {error : TypeError} {first second : Ty}
    (hcompared : error.compared? = some (first, second)) (hne : first ≠ second) :
    error.TellsApart := by
  intro first' second' hsome
  rw [hcompared, Option.some.injEq, Prod.mk.injEq] at hsome
  obtain ⟨rfl, rfl⟩ := hsome
  exact hne

end TypeError

theorem tellsApart_of_firstMisfit {name : String} {number : Nat} {parameters given : List Ty}
    {error : TypeError} (hmisfit : firstMisfit name number parameters given = some error) :
    error.TellsApart := by
  induction parameters generalizing number given with
  | nil => cases hmisfit
  | cons expected parameters ih =>
      cases given with
      | nil => cases hmisfit
      | cons found given =>
          rw [firstMisfit] at hmisfit
          split at hmisfit
          · exact ih hmisfit
          · next hfits =>
              obtain rfl := Option.some.inj hmisfit
              exact TypeError.tellsApart_of_ne rfl (Ty.ne_of_not_fits hfits).symm

theorem tellsApart_of_callType {scopes : Scopes Ty} {name : String} {given : List Ty}
    {error : TypeError} (hcall : callType scopes name given = .error error) :
    error.TellsApart := by
  rw [callType] at hcall
  split at hcall
  · split at hcall
    · split at hcall
      · next hmisfit =>
          obtain rfl := Except.error.inj hcall
          exact tellsApart_of_firstMisfit hmisfit
      · cases hcall
    · obtain rfl := Except.error.inj hcall
      exact TypeError.tellsApart_of_compared?_eq_none rfl
  · obtain rfl := Except.error.inj hcall
    exact TypeError.tellsApart_of_compared?_eq_none rfl

namespace Expr

variable {scopes : Scopes Ty}

mutual

theorem tellsApart_of_typeOf {expression : Expr} {error : TypeError}
    (htype : expression.typeOf scopes = .error error) : error.TellsApart := by
  cases expression with
  | int value => cases htype
  | bool value => cases htype
  | var name =>
      rw [typeOf] at htype
      split at htype
      · cases htype
      · obtain rfl := Except.error.inj htype
        exact TypeError.tellsApart_of_compared?_eq_none rfl
  | unary operator operand =>
      rw [typeOf] at htype
      split at htype
      · next hoperand =>
          obtain rfl := Except.error.inj htype
          exact tellsApart_of_typeOf hoperand
      · exact tellsApart_of_callType htype
  | binary operator left right =>
      rw [typeOf] at htype
      split at htype
      · next hleft =>
          obtain rfl := Except.error.inj htype
          exact tellsApart_of_typeOf hleft
      · split at htype
        · next hright =>
            obtain rfl := Except.error.inj htype
            exact tellsApart_of_typeOf hright
        · exact tellsApart_of_callType htype
  | call function arguments =>
      rw [typeOf] at htype
      split at htype
      · next harguments =>
          obtain rfl := Except.error.inj htype
          exact tellsApart_of_typesOf harguments
      · exact tellsApart_of_callType htype

theorem tellsApart_of_typesOf {expressions : List Expr} {error : TypeError}
    (htypes : typesOf scopes expressions = .error error) : error.TellsApart := by
  cases expressions with
  | nil => cases htypes
  | cons first rest =>
      rw [typesOf] at htypes
      split at htypes
      · next hfirst =>
          obtain rfl := Except.error.inj htypes
          exact tellsApart_of_typeOf hfirst
      · split at htypes
        · next hrest =>
            obtain rfl := Except.error.inj htypes
            exact tellsApart_of_typesOf hrest
        · cases htypes

end

end Expr

namespace Stmt

mutual

/-- In each error of the check, the types set against each other are different ones. -/
theorem tellsApart_of_check {statement : Stmt} {scopes : Scopes Ty} {error : TypeError}
    (hcheck : (statement.check scopes).1 = .error error) : error.TellsApart := by
  have hverdict := verdict_check statement scopes
  generalize statement.check scopes = checked at hcheck hverdict
  obtain ⟨outcome, after⟩ := checked
  obtain rfl : outcome = .error error := hcheck
  match statement, hverdict with
  | .block _, .block hbody => exact tellsApart_of_checkAll hbody
  | .conditional _ _ _, .conditional _ _ helse => exact tellsApart_of_check helse
  | .conditional _ _ _, .badBranch _ hthen => exact tellsApart_of_check hthen
  | .loop _ _, .loop _ hbody => exact tellsApart_of_check hbody
  | _, .untyped _ hvalue => exact Expr.tellsApart_of_typeOf hvalue
  | .assignment _ _, .badAssignment _ _ hne
  | .conditional _ _ _, .badIfCondition _ hne
  | .loop _ _, .badLoopCondition _ hne => exact TypeError.tellsApart_of_ne rfl hne
  | .declaration _ _ _, .redeclared _
  | .declaration _ _ _, .badInitialValue _ _
  | .assignment _ _, .undeclared _ => exact TypeError.tellsApart_of_compared?_eq_none rfl

theorem tellsApart_of_checkAll {statements : List Stmt} {scopes : Scopes Ty} {error : TypeError}
    (hcheck : (checkAll statements scopes).1 = .error error) : error.TellsApart := by
  cases statements with
  | nil => cases hcheck
  | cons first rest =>
      rw [checkAll] at hcheck
      split at hcheck
      · next hfirst =>
          obtain rfl := Except.error.inj hcheck
          exact tellsApart_of_check (Prod.ext_iff.1 hfirst).1
      · exact tellsApart_of_checkAll hcheck

end

/-- Types with the same text are the same, however deep the functions in them take and return
functions.  An error of the checker that sets two types against each other therefore shows two
different texts for them. -/
theorem printed_types_unambiguous :
    Function.Injective Ty.text ∧
      ∀ (program : Stmt) (builtins : Builtins) (error : TypeError) (first second : Ty),
        program.checkProgram builtins = .error error → error.compared? = some (first, second) →
          first.text ≠ second.text ∧ ∃ before between behind : String,
            error.message = before ++ first.text ++ between ++ second.text ++ behind := by
  refine ⟨Ty.text_injective, ?_⟩
  intro program builtins error first second hcheck hcompared
  have hne : first ≠ second := tellsApart_of_check hcheck first second hcompared
  exact ⟨fun heq => hne (Ty.text_injective heq), TypeError.exists_message_eq hcompared⟩

/-- A routine that takes a function, and one that returns a function. -/
def higherOrder : Builtins :=
  (Builtins.operators.insert "apply" (.function [.function [.int] .int] .int) (by decide)).insert
    "adder" (.function [.int] (.function [.int] .int)) (by decide)

/-- The two types are shown by texts that differ only in where the parentheses stand. -/
theorem printed_types_unambiguous_higherOrder :
    (Stmt.assignment "apply" (.var "adder")).checkProgram higherOrder =
        .error (.badAssignment "apply" (.function [.function [.int] .int] .int)
          (.function [.int] (.function [.int] .int))) ∧
      (Ty.function [.int] (.function [.int] .int)).text = "(int) -> (int) -> int" ∧
      (Ty.function [.function [.int] .int] .int).text = "((int) -> int) -> int" ∧
      (Ty.function [.int] (.function [.int] .int)).text ≠
        (Ty.function [.function [.int] .int] .int).text := by
  have hcheck : (Stmt.assignment "apply" (.var "adder")).checkProgram higherOrder =
      .error (.badAssignment "apply" (.function [.function [.int] .int] .int)
        (.function [.int] (.function [.int] .int))) := rfl
  exact ⟨hcheck, by cbv, by cbv, (printed_types_unambiguous.2 _ _ _ _ _ hcheck rfl).1⟩

end Stmt

end WhileCompiler
