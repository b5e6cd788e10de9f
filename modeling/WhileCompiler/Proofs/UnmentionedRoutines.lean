import WhileCompiler.Compiler
import WhileCompiler.Proofs.LinkedPrograms
import WhileCompiler.Proofs.Typing.Renaming

/-!
# Routines that a source does not mention

Announcing a routine changes nothing for a source without its name, whether the source is accepted
or not, and also where the routine takes the place of an earlier one.
-/

namespace WhileCompiler

open Asm Ir

namespace Builtins

variable {builtins extended : Builtins} {name other : String} {type : Ty}

theorem eq_insert_of_withRoutine (hannounced : builtins.withRoutine name type = .ok extended) :
    ∃ hname, extended = builtins.insert name type hname := by
  rw [withRoutine] at hannounced
  split at hannounced
  · next hname => exact ⟨hname, (Except.ok.inj hannounced).symm⟩
  · split at hannounced <;> cases hannounced

theorem signature?_insert_of_ne (hname : isLinkable name) (hne : other ≠ name) :
    (builtins.insert name type hname).signature? other = builtins.signature? other := by
  have hroutine : (builtins.insert name type hname).routines.get? other =
      builtins.routines.get? other :=
    builtins.routines.get?_insert_of_ne type hne
  rw [signature?_eq, signature?_eq, hroutine]
  rfl

/-- A routine is no operator, so that the recipes stay the same. -/
theorem recipe?_insert (hname : isLinkable name) :
    (builtins.insert name type hname).recipe? = builtins.recipe? := rfl

end Builtins

/-! ## Emission -/

namespace Asm

variable {builtins others : Builtins}

theorem emit_congr (hrecipes : others.recipe? = builtins.recipe?) (frame : Frame)
    (command : Command) : emit others frame command = emit builtins frame command := by
  cases command with
  | call destination function arguments => rw [emit, emit, hrecipes]
  | copy destination value => rfl
  | label name => rfl
  | jump target => rfl
  | jumpIf target condition => rfl
  | jumpUnless target condition => rfl

theorem emitAll_congr (hrecipes : others.recipe? = builtins.recipe?) (frame : Frame)
    (code : List Command) : emitAll others frame code = emitAll builtins frame code := by
  induction code with
  | nil => rfl
  | cons first rest ih => rw [emitAll, emitAll, emit_congr hrecipes, ih]

theorem external?_congr (hrecipes : others.recipe? = builtins.recipe?) :
    external? others = external? builtins := by
  funext command
  cases command with
  | call destination function arguments => rw [external?, external?, hrecipes]
  | copy destination value => rfl
  | label name => rfl
  | jump target => rfl
  | jumpIf target condition => rfl
  | jumpUnless target condition => rfl

/-- Of the built-in names, emission uses nothing but the recipes. -/
theorem listing_congr (hrecipes : others.recipe? = builtins.recipe?) (code : List Command) :
    listing others code = listing builtins code := by
  simp only [listing, Routine.ofCommands, emitAll_congr hrecipes, external?_congr hrecipes]

end Asm

namespace Compiler

variable {source : String} {program : Stmt} {name : String}

/-- A program without a name is not changed by the renaming that changes no name. -/
theorem renamesAll_of_unmentioned (hparse : parse source = .ok program)
    (hname : Text.isIdentifier name.toList = true)
    (hunmentioned : ∀ tokens, Token.ofSource source = .ok tokens → ¬ Mentions tokens name) :
    Stmt.RenamesAll id {other | other ≠ name} program.actions := by
  obtain ⟨tokens, htokens, hmentions⟩ := Stmt.exists_mentions_of_parse hparse
  intro action haction
  obtain ⟨hvars, hfunctions⟩ := hmentions action haction
  constructor
  · rintro other hother rfl
    exact hunmentioned tokens htokens (hvars other hother)
  · intro other hother
    refine ⟨?_, rfl⟩
    rintro rfl
    exact hunmentioned tokens htokens (hfunctions other hother hname)

/-- A program is checked alike by built-in names that agree on the names in it. -/
theorem checkProgram_congr {names : Set String} (hnames : Stmt.RenamesAll id names program.actions)
    {builtins others : Builtins}
    (hbuiltins : ∀ other ∈ names, others.signature? other = builtins.signature? other) :
    program.checkProgram others = program.checkProgram builtins := by
  have hcheck := Stmt.checkProgram_rename (Set.injOn_id names) hnames hbuiltins
  rw [Stmt.rename_id] at hcheck
  rw [hcheck]
  cases program.checkProgram builtins with
  | error error => exact congrArg Except.error error.rename_id
  | ok value => rfl

/-- A source that does not mention a routine compiles to the same listing, or is rejected for the
same fault, whether the routine has been announced or not. -/
theorem compileWith_unmentioned (builtins extended : Builtins) (name : String) (type : Ty)
    (hannounced : builtins.withRoutine name type = .ok extended) (source : String)
    (hunmentioned : ∀ tokens, Token.ofSource source = .ok tokens → ¬ Mentions tokens name) :
    compileWith extended source = compileWith builtins source := by
  obtain ⟨hlinkable, rfl⟩ := Builtins.eq_insert_of_withRoutine hannounced
  rw [compileWith, compileWith]
  cases hparse : parse source with
  | error error => rfl
  | ok program =>
      have hnames := renamesAll_of_unmentioned hparse (isIdentifier_of_isLinkable hlinkable)
        hunmentioned
      have hcheck : program.checkProgram (builtins.insert name type hlinkable) =
          program.checkProgram builtins :=
        checkProgram_congr hnames fun other hother =>
          Builtins.signature?_insert_of_ne hlinkable hother
      change emit (builtins.insert name type hlinkable) program = emit builtins program
      rw [emit, emit, hcheck, listing_congr (Builtins.recipe?_insert hlinkable)]

/-- A source with a variable whose name begins like that of a standard routine. -/
def echoSource : String :=
  "\x7breadInto:int:=1;printInt(readInto);\x7d"

def echoTokens : List Token :=
  [⟨.leftBrace, "\x7b", ⟨1, 1⟩⟩, ⟨.identifier, "readInto", ⟨1, 2⟩⟩, ⟨.colon, ":", ⟨1, 10⟩⟩,
    ⟨.identifier, "int", ⟨1, 11⟩⟩, ⟨.assign, ":=", ⟨1, 14⟩⟩, ⟨.integer, "1", ⟨1, 16⟩⟩,
    ⟨.semicolon, ";", ⟨1, 17⟩⟩, ⟨.identifier, "printInt", ⟨1, 18⟩⟩,
    ⟨.leftParenthesis, "(", ⟨1, 26⟩⟩, ⟨.identifier, "readInto", ⟨1, 27⟩⟩,
    ⟨.rightParenthesis, ")", ⟨1, 35⟩⟩, ⟨.semicolon, ";", ⟨1, 36⟩⟩,
    ⟨.rightBrace, "\x7d", ⟨1, 37⟩⟩, ⟨.endOfInput, "", ⟨1, 38⟩⟩]

theorem compileWith_unmentioned_echo :
    ∃ extended, Builtins.standard.withRoutine "readInt" (.function [.bool] .void) = .ok extended ∧
      Token.ofSource echoSource = .ok echoTokens ∧ ¬ Mentions echoTokens "readInt" ∧
      compileWith extended echoSource = compileWith .standard echoSource := by
  have hsource : Token.ofSource echoSource = .ok echoTokens := by
    decide +kernel
  have hunmentioned : ¬ Mentions echoTokens "readInt" := by
    simp [echoTokens, Mentions]
  refine ⟨_, rfl, hsource, hunmentioned, ?_⟩
  apply compileWith_unmentioned .standard _ "readInt" (.function [.bool] .void) rfl
  intro tokens htokens
  obtain rfl := Except.ok.inj (hsource.symm.trans htokens)
  exact hunmentioned

end Compiler

end WhileCompiler
