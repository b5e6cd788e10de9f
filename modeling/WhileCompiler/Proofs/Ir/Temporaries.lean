import Mathlib
import WhileCompiler.Proofs.Ir.LoweredCode
import WhileCompiler.Proofs.Syntax.SpelledPrograms
import WhileCompiler.Proofs.Typing.BuiltinNames

/-!
# The names in lowered code

The calls in lowered code put their results into temporaries, and each call has one of its own.  The
labels are drawn in the same way, although they are drawn before the parts of a statement are
lowered and stand behind them.  In the code of a program every name that was made for it therefore
has one meaning, and none of them is a name of the program itself.
-/

namespace WhileCompiler

open Ir

namespace Ir

/-- The variable that a call writes. -/
def Command.temporary? : Command → Option String
  | .call temporary _ _ => some temporary
  | .copy _ _ | .label _ | .jump _ | .jumpIf _ _ | .jumpUnless _ _ => none

/-- The variables that the calls in some code write, in order. -/
def temporaries (code : List Command) : List String :=
  code.filterMap Command.temporary?

@[simp] theorem temporaries_nil : temporaries [] = [] := rfl

@[simp] theorem temporaries_append (left right : List Command) :
    temporaries (left ++ right) = temporaries left ++ temporaries right :=
  List.filterMap_append

@[simp] theorem temporaries_cons (command : Command) (rest : List Command) :
    temporaries (command :: rest) = command.temporary?.toList ++ temporaries rest := by
  cases command <;> rfl

/-- Code whose calls write temporaries drawn between two states, each for one call. -/
structure Stores (earlier later : Names) (code : List Command) : Prop where
  before : earlier.Before later
  drawn : ∀ name ∈ temporaries code, Names.Drawn earlier later name
  made : ∀ name ∈ temporaries code, IsTemporary name
  nodup : (temporaries code).Nodup

theorem stores_nil (names : Names) : Stores names names [] :=
  ⟨.refl names, by simp, by simp, by simp⟩

theorem Stores.append {first second third : Names} {left right : List Command}
    (hleft : Stores first second left) (hright : Stores second third right) :
    Stores first third (left ++ right) := by
  refine ⟨hleft.before.trans hright.before, ?_, ?_, ?_⟩
  · intro name hmem
    rcases List.mem_append.1 (temporaries_append left right ▸ hmem) with hmem | hmem
    · exact (hleft.drawn name hmem).widen (.refl first) hright.before
    · exact (hright.drawn name hmem).widen hleft.before (.refl third)
  · intro name hmem
    rcases List.mem_append.1 (temporaries_append left right ▸ hmem) with hmem | hmem
    · exact hleft.made name hmem
    · exact hright.made name hmem
  · rw [temporaries_append]
    exact Names.nodup_append_of_drawn hleft.drawn hright.drawn hleft.nodup hright.nodup

theorem temporaries_call (temporary function : String) (arguments : List Value) :
    temporaries [.call temporary function arguments] = [temporary] := rfl

theorem Stores.call {earlier : Names} {arguments : Lowered (List Value)}
    (harguments : Stores earlier arguments.names arguments.code) (function : String) :
    Stores earlier (arguments.call function).names (arguments.call function).code := by
  refine harguments.append ⟨arguments.names.before_fresh _, ?_, ?_, ?_⟩
  · intro name hmem
    rw [temporaries_call, List.mem_singleton] at hmem
    exact hmem ▸ Names.drawn_fresh _ (isStem_temporaryStem function)
  · intro name hmem
    rw [temporaries_call, List.mem_singleton] at hmem
    exact hmem ▸ isTemporary_fresh _ function
  · rw [temporaries_call]
    exact List.nodup_singleton _

/-- Labels, jumps and copies around some code write no temporary, and the labels are drawn before
it begins. -/
theorem Stores.surround {outer earlier later : Names} {inner code : List Command}
    (hinner : Stores earlier later inner) (hbefore : outer.Before earlier)
    (hcode : temporaries code = temporaries inner) : Stores outer later code := by
  refine ⟨hbefore.trans hinner.before, ?_, ?_, ?_⟩
  · rw [hcode]
    exact fun name hmem => (hinner.drawn name hmem).widen hbefore (.refl later)
  · rw [hcode]
    exact hinner.made
  · rw [hcode]
    exact hinner.nodup

end Ir

mutual

theorem Expr.stores_lower (expression : Expr) (names : Names) :
    Stores names (expression.lower names).names (expression.lower names).code := by
  cases expression with
  | int value => exact stores_nil names
  | bool value => exact stores_nil names
  | var name => exact stores_nil names
  | unary operator operand => exact (operand.stores_lower names).call _
  | binary operator left right =>
      exact ((left.stores_lower names).append (right.stores_lower _)).call _
  | call function arguments => exact (Expr.stores_lowerAll arguments names).call _

theorem Expr.stores_lowerAll (expressions : List Expr) (names : Names) :
    Stores names (Expr.lowerAll expressions names).names
      (Expr.lowerAll expressions names).code := by
  cases expressions with
  | nil => exact stores_nil names
  | cons first rest => exact (first.stores_lower names).append (Expr.stores_lowerAll rest _)

end

mutual

theorem Stmt.stores_lower (statement : Stmt) (names : Names) :
    Stores names (statement.lower names).names (statement.lower names).code := by
  cases statement with
  | empty => exact stores_nil names
  | block body => exact Stmt.stores_lowerAll body names
  | declaration name type value =>
      exact (value.stores_lower names).surround (.refl names) (by
        simp [Stmt.lower, Command.temporary?])
  | assignment name value =>
      exact (value.stores_lower names).surround (.refl names) (by
        simp [Stmt.lower, Command.temporary?])
  | conditional condition thenBranch elseBranch =>
      have hlabels := (names.before_fresh elseStem).trans (Names.before_fresh _ endIfStem)
      have hparts (names : Names) := (condition.stores_lower names).append
        (thenBranch.stores_lower (condition.lower names).names)
      cases hempty : elseBranch.isEmpty with
      | true =>
          rw [Stmt.lower_ifThen hempty]
          exact (hparts _).surround hlabels (by simp [Command.temporary?])
      | false =>
          rw [Stmt.lower_ifThenElse hempty]
          have hall (names : Names) := (hparts names).append (elseBranch.stores_lower _)
          exact (hall _).surround hlabels (by simp [Command.temporary?])
  | loop condition body =>
      have hlabels := (names.before_fresh loopHeadStem).trans (Names.before_fresh _ loopEndStem)
      have hparts (names : Names) := (condition.stores_lower names).append
        (body.stores_lower (condition.lower names).names)
      refine (hparts _).surround hlabels ?_
      simp only [Stmt.lower, List.cons_append, temporaries_append, temporaries_cons,
        temporaries_nil, Command.temporary?, Option.toList_none, List.nil_append, List.append_nil]
      rfl
  | expression value => exact value.stores_lower names

theorem Stmt.stores_lowerAll (statements : List Stmt) (names : Names) :
    Stores names (Stmt.lowerAll statements names).names
      (Stmt.lowerAll statements names).code := by
  cases statements with
  | nil => exact stores_nil names
  | cons first rest => exact (first.stores_lower names).append (Stmt.stores_lowerAll rest _)

end

namespace Stmt

/-- The variables of a source are spelled like identifiers, and temporaries are not. -/
theorem not_isTemporary_of_parse {source : String} {program : Stmt}
    (hparse : Compiler.parse source = .ok program) {name : String} (hname : name ∈ program.vars) :
    ¬ IsTemporary name := by
  have hspelling := (isSpelled_of_parse hparse).names name hname
  simp only [Token.isName, Bool.and_eq_true] at hspelling
  exact Builtins.not_isTemporary_of_isIdentifier hspelling.1.1

/-- In the code of a program each label stands in one place and every jump leads to it, each call
has a temporary of its own, and no temporary is a variable of the source that was parsed. -/
theorem toIr_names_unambiguous (program : Stmt) :
    (∀ name ∈ labels program.toIr, (labels program.toIr).count name = 1) ∧
      (∀ command ∈ program.toIr, ∀ target ∈ command.target?,
        (labels program.toIr).count target = 1) ∧
      (temporaries program.toIr).Nodup ∧
      ∀ source, Compiler.parse source = .ok program →
        ∀ name ∈ program.vars, name ∉ temporaries program.toIr := by
  have hlabelled := program.labelled_lower .initial
  have hstores := program.stores_lower .initial
  have honce : ∀ name ∈ labels program.toIr, (labels program.toIr).count name = 1 :=
    fun name hmem => List.count_eq_one_of_mem hlabelled.nodup hmem
  refine ⟨honce, ?_, hstores.nodup, ?_⟩
  · intro command hmem target htarget
    exact honce target (program.jumpsWithin_lower .initial command hmem target htarget)
  · intro source hparse name hname hmem
    exact not_isTemporary_of_parse hparse hname (hstores.made name hmem)

/-- A loop that calls one function eleven times and another one, whose name goes on with a digit,
once. -/
def nestedCalls : Stmt :=
  .loop (.var "b") (.assignment "x"
    ((List.replicate 11 "f").foldr (fun function argument => .call function [argument])
      (.call "f_1" [])))

theorem parse_nestedCalls :
    Compiler.parse "while b do x := f(f(f(f(f(f(f(f(f(f(f(f_1())))))))))));" =
      .ok nestedCalls := by
  cbv

/-- The eleventh result of `f` and the first one of `f_1` differ in one underscore. -/
theorem toIr_names_unambiguous_nestedCalls :
    "$resultOf_f_11" ∈ temporaries nestedCalls.toIr ∧
      "$resultOf_f_1_1" ∈ temporaries nestedCalls.toIr ∧ (temporaries nestedCalls.toIr).Nodup ∧
      (labels nestedCalls.toIr).count "whileHead1" = 1 ∧ "x" ∉ temporaries nestedCalls.toIr := by
  obtain ⟨hlabels, -, htemporaries, hvars⟩ := toIr_names_unambiguous nestedCalls
  refine ⟨by decide, by decide, htemporaries, hlabels _ (by decide), ?_⟩
  exact hvars _ parse_nestedCalls "x" (by decide)

end Stmt

end WhileCompiler
