import Mathlib
import WhileCompiler.Compiler
import WhileCompiler.Proofs.Ir.TypedCode
import WhileCompiler.Proofs.Syntax.SpelledPrograms
import WhileCompiler.Proofs.Typing.Checking

/-!
# Whether checked programs can be emitted

No emission should fail once a program has been checked.  There is one way in which it does: the
checker lets a program assign a built-in name to another one of the same type, and a built-in name
that is never assigned has no word in the frame.
-/

namespace WhileCompiler

open Asm Ir

theorem Stmt.IsSpelled.declaresValues {program : Stmt} (hspelled : program.IsSpelled) :
    program.DeclaresValues := by
  intro name type value hmem
  rcases hspelled.declared name type value hmem with rfl | rfl
  · trivial
  · trivial

namespace Compiler

variable {builtins : Builtins} {source : String} {program : Stmt} {listed : List String}

theorem parse_ne_emission {error : EmissionError} : parse source ≠ .error (.emission error) := by
  intro hparse
  rcases bind_eq_error.1 hparse with hlexical | ⟨tokens, -, hgrammatical⟩
  · obtain ⟨fault, -, hfault⟩ := mapError_eq_error.1 hlexical
    cases hfault
  · obtain ⟨fault, -, hfault⟩ := mapError_eq_error.1 hgrammatical
    cases hfault

/-- Emission is only tried on programs that have been parsed and checked. -/
theorem compileWith_eq_emission {error : EmissionError} :
    compileWith builtins source = .error (.emission error) ↔
      ∃ program, parse source = .ok program ∧ program.checkProgram builtins = .ok () ∧
        listing builtins program.toIr = .error error := by
  rw [compileWith, bind_eq_error, or_iff_right parse_ne_emission]
  refine exists_congr fun program => and_congr_right fun _ => ?_
  rw [emit, bind_eq_error]
  constructor
  · rintro (hcheck | ⟨_, hcheck, hlisting⟩)
    · obtain ⟨fault, -, hfault⟩ := mapError_eq_error.1 hcheck
      cases hfault
    · obtain ⟨fault, hfault, hemission⟩ := mapError_eq_error.1 hlisting
      exact ⟨mapError_eq_ok.1 hcheck, CompileError.emission.inj hemission ▸ hfault⟩
  · rintro ⟨hcheck, hlisting⟩
    exact .inr ⟨(), mapError_eq_ok.2 hcheck, mapError_eq_error.2 ⟨error, hlisting, rfl⟩⟩

/-- What is compiled has been parsed and checked before. -/
theorem compileWith_eq_ok :
    compileWith builtins source = .ok listed ↔
      ∃ program, parse source = .ok program ∧ program.checkProgram builtins = .ok () ∧
        listing builtins program.toIr = .ok listed := by
  rw [compileWith, bind_eq_ok]
  refine exists_congr fun program => and_congr_right fun _ => ?_
  rw [emit, bind_eq_ok]
  constructor
  · rintro ⟨_, hcheck, hlisting⟩
    exact ⟨mapError_eq_ok.1 hcheck, mapError_eq_ok.1 hlisting⟩
  · rintro ⟨hcheck, hlisting⟩
    exact ⟨(), mapError_eq_ok.2 hcheck, mapError_eq_ok.2 hlisting⟩

/-- What is left to ask of a program that has been checked. -/
theorem listing_isOk_of_checked (hbuiltins : builtins.IsFirstOrder)
    (hparse : parse source = .ok program) (hcheck : program.checkProgram builtins = .ok ()) :
    (∃ lines, listing builtins program.toIr = .ok lines) ↔
      ∀ target name, (target, name) ∈ program.copies → (builtins.signature? name).isSome →
        name ∈ program.targets := by
  obtain ⟨after, htyped⟩ := Stmt.wellTyped_of_checkProgram hcheck
  have hdeclared := (Stmt.isSpelled_of_parse hparse).declaresValues
  rw [listing_isOk_iff]
  constructor
  · intro hcode target name hcopy hbuiltin
    have haction := Stmt.mem_copies.1 hcopy
    obtain ⟨names, hmem⟩ := program.copy_mem_lower .initial _ haction target rfl
    have hassigned := (hcode _ hmem).2 name (List.mem_singleton_self _)
    exact (Stmt.mem_targets_or_isTemporary hassigned).resolve_right
      (Builtins.not_isTemporary_of_signature? hbuiltin)
  · intro hcopies command hmem
    refine ⟨Stmt.hasCount_toIr htyped command hmem, fun name hname => ?_⟩
    have hread := Stmt.readsKnown_toIr hbuiltins htyped hdeclared (fun _ h => h) hcopies
      command hmem name hname
    exact hread.elim Stmt.mem_assigned_of_mem_targets id

/-- Emission fails on exactly the checked programs that copy a built-in name which they never
assign. -/
theorem compileWith_emission_iff (start builtins : Builtins) (routines : List (String × Ty))
    (hstart : start = .operators ∨ start = .standard)
    (hroutines : ∀ routine ∈ routines, routine.2.IsFirstOrder)
    (hannounce : start.announce routines = .ok builtins) (source : String) :
    (∃ error, compileWith builtins source = .error (.emission error)) ↔
      ∃ program, parse source = .ok program ∧ program.checkProgram builtins = .ok () ∧
        ∃ target name, (target, name) ∈ program.copies ∧ (builtins.signature? name).isSome ∧
          name ∉ program.targets := by
  have hbuiltins : builtins.IsFirstOrder := by
    rcases hstart with rfl | rfl
    · exact Builtins.isFirstOrder_operators.announce hroutines hannounce
    · exact Builtins.isFirstOrder_standard.announce hroutines hannounce
  have hfails {program : Stmt} (hparse : parse source = .ok program)
      (hcheck : program.checkProgram builtins = .ok ()) :
      (∃ error, listing builtins program.toIr = .error error) ↔
        ∃ target name, (target, name) ∈ program.copies ∧ (builtins.signature? name).isSome ∧
          name ∉ program.targets := by
    rw [exists_eq_error_iff, listing_isOk_of_checked hbuiltins hparse hcheck]
    simp only [Classical.not_forall, exists_prop]
  constructor
  · rintro ⟨error, herror⟩
    obtain ⟨program, hparse, hcheck, hlisting⟩ := compileWith_eq_emission.1 herror
    exact ⟨program, hparse, hcheck, (hfails hparse hcheck).1 ⟨error, hlisting⟩⟩
  · rintro ⟨program, hparse, hcheck, hcopy⟩
    obtain ⟨error, hlisting⟩ := (hfails hparse hcheck).2 hcopy
    exact ⟨error, compileWith_eq_emission.2 ⟨program, hparse, hcheck, hlisting⟩⟩

/-- The standard built-in names and a routine of the type of the one that reads a number. -/
def withClock : Builtins :=
  Builtins.standard.insert "clock" (.function [] .int) (by decide)

theorem announce_clock :
    Builtins.standard.announce [("clock", .function [] .int)] = .ok withClock := rfl

theorem isFirstOrder_clock :
    ∀ routine ∈ [("clock", Ty.function [] .int)], routine.2.IsFirstOrder := by
  simp [Ty.IsFirstOrder, Ty.IsValue]

theorem parse_clock :
    parse "clock := readInt;" = .ok (.assignment "clock" (.var "readInt")) := by
  cbv

/-- The checker takes a program that gives one routine the name of another one. -/
theorem compileWith_clock :
    (∀ routine ∈ [("clock", Ty.function [] .int)], routine.2.IsFirstOrder) ∧
      Builtins.standard.announce [("clock", .function [] .int)] = .ok withClock ∧
      compileWith withClock "clock := readInt;" =
        .error (.emission (.neverAssigned "readInt")) := by
  refine ⟨isFirstOrder_clock, announce_clock, ?_⟩
  rw [compileWith, parse_clock]
  rfl

theorem compileWith_emission_iff_clock :
    (Builtins.standard = .operators ∨ Builtins.standard = .standard) ∧
      (∀ routine ∈ [("clock", Ty.function [] .int)], routine.2.IsFirstOrder) ∧
      Builtins.standard.announce [("clock", .function [] .int)] = .ok withClock ∧
        ∃ error, compileWith withClock "clock := readInt;" = .error (.emission error) := by
  refine ⟨.inr rfl, isFirstOrder_clock, announce_clock, ?_⟩
  apply (compileWith_emission_iff .standard withClock _ (.inr rfl) isFirstOrder_clock
    announce_clock "clock := readInt;").2
  refine ⟨_, parse_clock, rfl, "clock", "readInt", ?_, rfl, ?_⟩
  · exact List.mem_singleton_self _
  · decide

end Compiler

end WhileCompiler
