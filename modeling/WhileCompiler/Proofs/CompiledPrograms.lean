import WhileCompiler.Proofs.CheckedPrograms
import WhileCompiler.Proofs.Ir.Preservation
import WhileCompiler.Proofs.Machine.GeneratedPrograms
import WhileCompiler.Proofs.Semantics.StandardCalls

/-!
# Compiled programs

A program that is accepted with the standard functions is compiled, and its listing does on the
machine what the program means: the scopes are erased, the statements lowered and the code printed
and read back, and none of this changes the outcome.
-/

namespace WhileCompiler

open Asm Ir Machine Semantics

namespace Stmt

/-- What a program does on an input, if each of its loops goes round at most a number of times.
Scopes are kept apart, and the built-in names are variables around all of them. -/
def meaning (program : Stmt) (input : List Int32) (rounds : Nat) :
    Outcome Console ConsoleError (Scopes Int32) :=
  program.exec .nested Console.meaning rounds Builtins.standard.scopes ⟨input, []⟩

variable {program : Stmt} {after : Context} {source : String}

/-! ## Code for the machine -/

theorem typedUnder_isStandard (hspelled : program.IsSpelled)
    (htyped : WellTyped Builtins.standard.signature? program after) :
    TypedUnder Context.IsStandard program.actions :=
  (htyped.typedUnder isStandard_signature? (keptBy_isStandard hspelled.declared)).2

theorem isStandardCall_of_mem (hspelled : program.IsSpelled)
    (htyped : WellTyped Builtins.standard.signature? program after) {destination function : String}
    {arguments : List Value} (hmem : .call destination function arguments ∈ program.toIr) :
    IsStandardCall function arguments := by
  obtain ⟨context, parameters, result, hcontext, hfunction, hcount⟩ :=
    exists_of_call (typedUnder_isStandard hspelled htyped) hmem
  have hstandard := isStandardFunction_of_signature? (hcontext.function hfunction)
  generalize htype : Ty.function parameters result = type at hstandard
  cases hstandard with
  | operator hoperator => exact .inl (Option.isSome_of_eq_some hoperator)
  | print =>
      obtain ⟨rfl, rfl⟩ := Ty.function.inj htype
      exact .inr (.inl ⟨rfl, hcount⟩)
  | read =>
      obtain ⟨rfl, rfl⟩ := Ty.function.inj htype
      exact .inr (.inr ⟨rfl, List.eq_nil_of_length_eq_zero hcount⟩)

theorem isStandalone_toIr (hspelled : program.IsSpelled)
    (htyped : WellTyped Builtins.standard.signature? program after) :
    IsStandalone program.toIr where
  identifier name hmem := ((program.labelled_lower .initial).made name hmem).isIdentifier
  unreserved name hmem hreserved := by
    have hgenerated := ((program.labelled_lower .initial).made name hmem).isGeneratedLabel
    have hnone : ["main", "_start", "printInt", "readInt"].all
        (fun name => !isGeneratedLabel name) = true := by decide
    have hname := List.all_eq_true.1 hnone name hreserved
    rw [hgenerated] at hname
    cases hname
  nodup := (program.labelled_lower .initial).nodup
  targets := program.jumpsWithin_lower .initial
  standard _ _ _ hmem := isStandardCall_of_mem hspelled htyped hmem

/-- Among the standard names that are spelled like variables, no two have the same type. -/
theorem eq_of_isStandardFunction {first second : String} {type : Ty}
    (hfirst : Text.isIdentifier first.toList = true)
    (hsecond : Text.isIdentifier second.toList = true) (hfirstType : IsStandardFunction first type)
    (hsecondType : IsStandardFunction second type) : first = second := by
  have hoperator {name : String} (hname : Text.isIdentifier name.toList = true) :
      Operator.ofName? name = none :=
    Builtins.standard.operator?_of_isIdentifier hname
  generalize htype : type = other at hsecondType
  cases hfirstType with
  | operator hfound =>
      rw [hoperator hfirst] at hfound
      cases hfound
  | print =>
      cases hsecondType with
      | operator hfound =>
          rw [hoperator hsecond] at hfound
          cases hfound
      | print => rfl
      | read => cases htype
  | read =>
      cases hsecondType with
      | operator hfound =>
          rw [hoperator hsecond] at hfound
          cases hfound
      | print => cases htype
      | read => rfl

theorem isIdentifier_of_mem_vars (hspelled : program.IsSpelled) {action : Action}
    (haction : action ∈ program.actions) {name : String} (hname : name ∈ action.vars) :
    Text.isIdentifier name.toList = true := by
  have hmem : name ∈ program.vars := by
    rw [vars_eq_flatMap]
    exact List.mem_flatMap.2 ⟨action, haction, hname⟩
  have hspelling := hspelled.names name hmem
  simp only [Token.isName, Bool.and_eq_true] at hspelling
  exact hspelling.1.1

/-- A program with the standard functions copies a built-in name to nothing but itself. -/
theorem mem_targets_of_copies (hspelled : program.IsSpelled)
    (htyped : WellTyped Builtins.standard.signature? program after) {target name : String}
    (hcopy : (target, name) ∈ program.copies)
    (hbuiltin : (Builtins.standard.signature? name).isSome) : name ∈ program.targets := by
  have haction := mem_copies.1 hcopy
  obtain ⟨context, hcontext, type, htarget, hvalue⟩ :=
    typedUnder_isStandard hspelled htyped _ haction
  obtain ⟨signature, hsignature⟩ := Option.isSome_iff_exists.1 hbuiltin
  obtain rfl : type = signature := by
    cases hvalue with
    | var hname => exact Option.some.inj (hname.symm.trans (hcontext.kept name _ hsignature))
  have hfunction := Builtins.isFirstOrder_standard name type hsignature
  have htargetSignature : Builtins.standard.signature? target = some type := by
    rcases hcontext.names target type htarget with rfl | rfl | hstandard
    · exact hfunction.elim
    · exact hfunction.elim
    · exact hstandard
  have htargetName : Text.isIdentifier target.toList = true :=
    isIdentifier_of_mem_vars hspelled haction (by simp [Action.vars, Action.target?])
  have hsourceName : Text.isIdentifier name.toList = true :=
    isIdentifier_of_mem_vars hspelled haction (by simp [Action.vars, Action.value, Expr.vars])
  have hsame : target = name :=
    eq_of_isStandardFunction htargetName hsourceName
      (isStandardFunction_of_signature? htargetSignature)
      (isStandardFunction_of_signature? hsignature)
  rw [← hsame]
  exact List.mem_filterMap.2 ⟨_, haction, rfl⟩

/-! ## What the code computes -/

/-- Neither the scopes nor the truth values of a program make a difference to what it does. -/
theorem erased_meaning (hspelled : program.IsSpelled)
    (htyped : WellTyped Builtins.standard.signature? program after) (left : Nat → Int32)
    (input : List Int32) (rounds : Nat) :
    (program.meaning input rounds).Matches (Erases .standard after)
      (program.exec .flat (Console.calls left) rounds (fun _ => 0) ⟨input, []⟩) := by
  have hzero (name : String) (type : Ty) (hname : Builtins.standard.signature? name = some type) :
      ValueRelation.standard type 0 0 := by
    cases type with
    | int | function parameters result => rfl
    | bool => exact ⟨false, rfl, rfl⟩
    | void => trivial
  have herased := htyped.erased (corresponds_standard left) isStandard_signature?
    (keptBy_isStandard hspelled.declared) (Builtins.standard.erases_scopes hzero) rounds ⟨input, []⟩
  exact herased.mono fun _ _ hlast => hlast.1

/-- What a program means is what its code computes, whatever printing leaves behind. -/
theorem agree_meaning (hspelled : program.IsSpelled)
    (htyped : WellTyped Builtins.standard.signature? program after) (left : Nat → Int32)
    (input : List Int32) :
    ∃ related : Scopes Int32 → (String → Int32) → Prop, Agree related (program.meaning input)
      fun steps => Ir.run (Console.calls left) program.toIr steps (fun _ => 0) ⟨input, []⟩ := by
  have hsources (name : String) (hname : name ∈ program.vars) : ¬ IsTemporary name := by
    rw [vars_eq_flatMap] at hname
    obtain ⟨action, haction, hname⟩ := List.mem_flatMap.1 hname
    exact Builtins.not_isTemporary_of_isIdentifier
      (isIdentifier_of_mem_vars hspelled haction hname)
  have herased := agree_of_matches (erased_meaning hspelled htyped left input)
  exact ⟨_, herased.trans (agree_run hsources (Console.calls left) (fun _ => 0) ⟨input, []⟩)⟩

end Stmt

namespace Compiler

/-- A source that prints the numbers from its input down to one. -/
def countdownSource : String :=
  "\x7b n: int := readInt(); while n > 0 do \x7b printInt(n); n := n - 1; \x7d \x7d"

def countdown : Stmt :=
  .block [.declaration "n" .int (.call "readInt" []),
    .loop (.binary ">" (.var "n") (.int 0)) (.block [
      .expression (.call "printInt" [.var "n"]),
      .assignment "n" (.binary "-" (.var "n") (.int 1))])]

theorem parse_countdown : parse countdownSource = .ok countdown := by
  cbv

end Compiler

end WhileCompiler
