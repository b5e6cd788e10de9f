import WhileCompiler.Proofs.LinkedPrograms
import WhileCompiler.Proofs.Syntax.WrittenExpressions
import WhileCompiler.Proofs.Text.Lines
import WhileCompiler.Proofs.UnmentionedRoutines

/-!
# Routines that can be called

A routine is announced under a name that the assembler can link to.  Sources can call it under this
name unless the name is reserved: keywords are no names, and a truth value at the start of a word is
a token of its own.
-/

namespace WhileCompiler

open Text

namespace Token

/-- Whether sources use a name for something else, or as two tokens. -/
def IsReserved (name : String) : Prop :=
  name.toList ∈ keywords.map Prod.fst ∨ ∃ spelling ∈ truthValues, spelling <+: name.toList

/-- A source that consists of a name has one token. -/
def IsSingleName (name : String) : Prop :=
  ofSource name =
    .ok [⟨.identifier, name, ⟨1, 1⟩⟩, ⟨.endOfInput, "", ⟨1, 1 + name.length⟩⟩]

theorem isName_iff {name : String} (hidentifier : isIdentifier name.toList = true) :
    isName name.toList = true ↔ ¬ IsReserved name := by
  simp only [isName, hidentifier, Bool.true_and, Bool.and_eq_true, Bool.not_eq_true',
    ← Bool.not_eq_true, List.contains_iff_mem, List.any_eq_true, List.isPrefixOf_iff_prefix,
    IsReserved, not_or]

theorem isSingleName_iff {name : String} : IsSingleName name ↔ isName name.toList = true := by
  constructor
  · intro hsingle
    exact isName_of_source hsingle List.mem_cons_self rfl
  · intro hname
    have hreads : Reads .start name.toList [⟨.identifier, name, .start⟩] [] :=
      reads_word hname (by decide) nofun
    have hidentifier : isIdentifier name.toList = true := by
      simp only [isName, Bool.and_eq_true] at hname
      exact hname.1.1
    have hblank : ∀ c ∈ name.toList, isBlank c = false := fun c hc =>
      isBlank_of_continuesIdentifier (continuesIdentifier_of_mem hidentifier c hc)
    rw [IsSingleName, hreads.ofSource, Position.after_start_of_isBlank hblank,
      String.length_toList]
    rfl

end Token

namespace Expr

open Token

/-- A source can call a function of this name. -/
def IsCallable (name : String) : Prop :=
  ∃ tokens, ofSource (name ++ "()") = .ok tokens ∧ ofTokens tokens = .ok (.call name [])

theorem isCallable_iff {name : String} : IsCallable name ↔ isName name.toList = true := by
  constructor
  · rintro ⟨tokens, htokens, hparsed⟩
    have hwritable := isWritable_of_source htokens hparsed
    simp only [isWritable, Bool.and_eq_true] at hwritable
    exact hwritable.1
  · intro hname
    have hwritable : (call name []).isWritable = true := by
      rw [isWritable, hname]
      rfl
    have htext : (call name []).text = name ++ "()" := by
      rw [← String.toList_inj, toList_text_call, String.toList_append]
      rfl
    rw [IsCallable, ← htext]
    exact exists_tokens_of_isWritable hwritable

end Expr

namespace Builtins

open Token

/-- A routine that has been announced is spelled by a token of its own, and sources can call it,
exactly if its name is not reserved. -/
theorem announced_callable_iff (builtins extended : Builtins) (name : String) (type : Ty)
    (hannounced : builtins.withRoutine name type = .ok extended) :
    (IsSingleName name ↔ ¬ IsReserved name) ∧ (Expr.IsCallable name ↔ ¬ IsReserved name) := by
  obtain ⟨hlinkable, -⟩ := eq_insert_of_withRoutine hannounced
  have hname := isName_iff (isIdentifier_of_isLinkable hlinkable)
  exact ⟨isSingleName_iff.trans hname, Expr.isCallable_iff.trans hname⟩

/-- A keyword at the start of a name and a truth value behind it do no harm. -/
theorem announced_callable_iff_do2true :
    ∃ extended, operators.withRoutine "do2true" (.function [] .int) = .ok extended ∧
      ¬ IsReserved "do2true" ∧ IsSingleName "do2true" ∧ Expr.IsCallable "do2true" := by
  have hfree : ¬ IsReserved "do2true" := by
    rw [← isName_iff (by decide)]
    decide
  have hcallable := announced_callable_iff operators _ "do2true" (.function [] .int) rfl
  exact ⟨_, rfl, hfree, hcallable.1.2 hfree, hcallable.2.2 hfree⟩

/-- Routines can be announced under a keyword, and under a name that begins with a truth value, but
no source can call them. -/
theorem announced_under_reserved_name :
    (∃ extended, standard.withRoutine "if" (.function [] .int) = .ok extended) ∧
      ofSource "if" = .ok [⟨.ifWord, "if", ⟨1, 1⟩⟩, ⟨.endOfInput, "", ⟨1, 3⟩⟩] ∧
      ¬ Expr.IsCallable "if" ∧
    (∃ extended, standard.withRoutine "trueish" (.function [] .int) = .ok extended) ∧
      ofSource "trueish" = .ok [⟨.boolean, "true", ⟨1, 1⟩⟩, ⟨.identifier, "ish", ⟨1, 5⟩⟩,
        ⟨.endOfInput, "", ⟨1, 8⟩⟩] ∧
      ¬ Expr.IsCallable "trueish" := by
  refine ⟨⟨_, rfl⟩, by decide +kernel, ?_, ⟨_, rfl⟩, by decide +kernel, ?_⟩
  · rw [Expr.isCallable_iff]
    decide
  · rw [Expr.isCallable_iff]
    decide

end Builtins

end WhileCompiler
