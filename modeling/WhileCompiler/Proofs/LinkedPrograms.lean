import WhileCompiler.Proofs.Asm.Symbols
import WhileCompiler.Proofs.CheckedPrograms

/-!
# Linked programs

The symbols of a compiled program never clash and always resolve.  Three rules have to agree for
this: which names are made for labels, which names the host may announce, and which ones the shell
takes for itself.
-/

namespace WhileCompiler

open Asm Ir Machine Text

namespace Builtins

/-- A built-in name that is not computed in place has been announced, and can be linked to. -/
theorem isLinkable_of_signature? {builtins : Builtins} {name : String}
    (hsignature : (builtins.signature? name).isSome) (hrecipe : builtins.recipe? name = none) :
    isLinkable name = true := by
  rw [recipe?, Option.map_eq_none_iff] at hrecipe
  rw [signature?_eq, hrecipe] at hsignature
  obtain ⟨type, hroutine⟩ := Option.isSome_iff_exists.1 hsignature
  exact builtins.linkable name (mem_routines_of_get? hroutine)

end Builtins

/-- A name that can be linked to is no symbol of a generated program. -/
theorem not_mem_of_isLinkable {name : String} (hname : isLinkable name = true) :
    name ∉ shellSymbols ∧ ¬ IsLabelName name := by
  simp only [isLinkable, Bool.and_eq_true, Bool.not_eq_true', List.contains_eq_mem,
    decide_eq_false_iff_not] at hname
  refine ⟨hname.1.2, fun hlabel => ?_⟩
  have hgenerated := hlabel.isGeneratedLabel
  rw [hname.2] at hgenerated
  cases hgenerated

theorem isIdentifier_of_isLinkable {name : String} (hname : isLinkable name = true) :
    isIdentifier name.toList = true := by
  simp only [isLinkable, Bool.and_eq_true] at hname
  exact hname.1.1

namespace Asm

namespace SymbolUse

def definition? : SymbolUse → Option String
  | definition name => some name
  | jump _ | call _ | external _ => none

def external? : SymbolUse → Option String
  | external name => some name
  | definition _ | jump _ | call _ => none

end SymbolUse

/-- The labels that a listing defines, in order. -/
def definitions (listing : List String) : List String :=
  (uses listing).filterMap SymbolUse.definition?

/-- The symbols that a listing leaves to the linker, in order. -/
def externals (listing : List String) : List String :=
  (uses listing).filterMap SymbolUse.external?

/-- The symbols of a listing never clash and always resolve. -/
structure Resolves (builtins : Builtins) (listing : List String) : Prop where
  /-- No label is defined twice. -/
  distinct : (definitions listing).Nodup
  /-- Jumps stay inside the program. -/
  jumps : ∀ target, .jump target ∈ uses listing → target ∈ definitions listing
  /-- All calls but the one of the routine itself leave the program. -/
  calls : ∀ target, .call target ∈ uses listing → target ≠ "main" →
    target ∉ definitions listing ∧ (externals listing).count target = 1
  /-- Nothing but a routine of the host that is called is left to the linker. -/
  routines : ∀ name ∈ externals listing, .call name ∈ uses listing ∧
    (builtins.signature? name).isSome ∧ builtins.recipe? name = none
  increasing : (externals listing).Pairwise (· < ·)

/-- Code that jumps to its own labels and calls built-in functions. -/
structure IsLinked (builtins : Builtins) (code : List Command) : Prop where
  nodup : (labels code).Nodup
  made : ∀ name ∈ labels code, IsLabelName name
  targets : JumpsWithin code
  known : ∀ name ∈ code.filterMap (external? builtins), (builtins.signature? name).isSome

section

variable {builtins : Builtins} {code : List Command} {listed : List String}

theorem recipe?_of_external {name : String} (hname : name ∈ code.filterMap (external? builtins)) :
    builtins.recipe? name = none := by
  obtain ⟨_, _, -, hrecipe⟩ := exists_call_of_external hname
  exact hrecipe

theorem IsLinked.isLinkable (hcode : IsLinked builtins code) {name : String}
    (hname : name ∈ code.filterMap (external? builtins)) : isLinkable name = true :=
  Builtins.isLinkable_of_signature? (hcode.known name hname) (recipe?_of_external hname)

/-- Every symbol that linked code uses can be read back from its lines. -/
theorem IsLinked.isNamed (hcode : IsLinked builtins code) :
    ∀ use ∈ code.filterMap (commandUse? builtins), use.IsNamed := by
  intro use huse
  obtain ⟨command, hmem, hcommand⟩ := List.mem_filterMap.1 huse
  have hjump {target : String} (htarget : target ∈ command.target?) :
      SymbolUse.IsNamed (.jump target) :=
    (hcode.made target (hcode.targets command hmem target htarget)).isIdentifier
  cases command with
  | copy destination value => cases hcommand
  | label name =>
      obtain rfl := Option.some.inj hcommand
      exact (hcode.made name (mem_labels.2 hmem)).isIdentifier
  | jump target =>
      obtain rfl := Option.some.inj hcommand
      exact hjump rfl
  | jumpIf target condition =>
      obtain rfl := Option.some.inj hcommand
      exact hjump rfl
  | jumpUnless target condition =>
      obtain rfl := Option.some.inj hcommand
      exact hjump rfl
  | call destination function arguments =>
      obtain ⟨name, hexternal, rfl⟩ := Option.map_eq_some_iff.1 hcommand
      exact isIdentifier_of_isLinkable
        (hcode.isLinkable (List.mem_filterMap.2 ⟨_, hmem, hexternal⟩))

/-- The symbols defined by a listing are the two of the opening and the labels of the code. -/
theorem definitions_listing (hcode : IsLinked builtins code)
    (hlisted : listing builtins code = .ok listed) :
    definitions listed = "_start" :: "main" :: labels code := by
  have hexternals (names : List String) :
      (names.map SymbolUse.external).filterMap SymbolUse.definition? = [] := by
    simp [List.filterMap_map, Function.comp_def, SymbolUse.definition?]
  have hlabels :
      (code.filterMap (commandUse? builtins)).filterMap SymbolUse.definition? = labels code := by
    rw [List.filterMap_filterMap, labels]
    congr 1
    funext command
    cases command with
    | call destination function arguments =>
        rw [commandUse?]
        cases external? builtins (.call destination function arguments) <;> rfl
    | copy | label | jump | jumpIf | jumpUnless => rfl
  rw [definitions, uses_listing hcode.isNamed hlisted, List.filterMap_append,
    List.filterMap_append, hexternals, hlabels]
  rfl

/-- The listing declares each routine that is called once, in increasing order. -/
theorem externals_listing (hcode : IsLinked builtins code)
    (hlisted : listing builtins code = .ok listed) :
    externals listed = (code.filterMap (external? builtins)).foldr insertName [] := by
  have hexternals (names : List String) :
      (names.map SymbolUse.external).filterMap SymbolUse.external? = names := by
    simp [List.filterMap_map, Function.comp_def, SymbolUse.external?]
  have hcommands :
      (code.filterMap (commandUse? builtins)).filterMap SymbolUse.external? = [] := by
    rw [List.filterMap_filterMap, List.filterMap_eq_nil_iff]
    intro command _
    cases command with
    | call destination function arguments =>
        rw [commandUse?]
        cases Asm.external? builtins (.call destination function arguments) <;> rfl
    | copy | label | jump | jumpIf | jumpUnless => rfl
  rw [externals, uses_listing hcode.isNamed hlisted, List.filterMap_append,
    List.filterMap_append, hexternals, hcommands]
  simp [shellUses, SymbolUse.external?]

theorem mem_labels_of_jump (hcode : IsLinked builtins code)
    (hlisted : listing builtins code = .ok listed) {target : String}
    (hjump : .jump target ∈ uses listed) : target ∈ labels code := by
  rw [uses_listing hcode.isNamed hlisted] at hjump
  simp only [shellUses, List.mem_append, List.mem_map, List.mem_cons, reduceCtorEq, and_false,
    exists_false, List.not_mem_nil, or_false, false_or] at hjump
  obtain ⟨command, hmem, hcommand⟩ := List.mem_filterMap.1 hjump
  apply hcode.targets command hmem
  cases command with
  | copy | label => cases hcommand
  | call destination function arguments =>
      obtain ⟨name, -, hname⟩ := Option.map_eq_some_iff.1 hcommand
      cases hname
  | jump | jumpIf | jumpUnless =>
      obtain rfl := SymbolUse.jump.inj (Option.some.inj hcommand)
      rfl

theorem call_mem_uses_iff (hcode : IsLinked builtins code)
    (hlisted : listing builtins code = .ok listed) {target : String} :
    .call target ∈ uses listed ↔
      target = "main" ∨ target ∈ code.filterMap (Asm.external? builtins) := by
  rw [uses_listing hcode.isNamed hlisted, mem_external]
  simp [shellUses]

/-- The listing of linked code resolves. -/
theorem IsLinked.resolves (hcode : IsLinked builtins code)
    (hlisted : listing builtins code = .ok listed) : Resolves builtins listed := by
  have hshell : ∀ name ∈ labels code, name ∉ shellSymbols := by
    intro name hname hreserved
    have hgenerated := (hcode.made name hname).isGeneratedLabel
    have hnone : shellSymbols.all (fun name => !isGeneratedLabel name) = true := by decide
    have hname := List.all_eq_true.1 hnone name hreserved
    rw [hgenerated] at hname
    cases hname
  have hsorted : (externals listed).Pairwise (· < ·) := by
    rw [externals_listing hcode hlisted]
    exact pairwise_foldr_insertName _
  have hmem (name : String) :
      name ∈ externals listed ↔ name ∈ code.filterMap (Asm.external? builtins) := by
    rw [externals_listing hcode hlisted, mem_foldr_insertName]
  have hdefinitions := definitions_listing hcode hlisted
  constructor
  case distinct =>
    rw [hdefinitions]
    simp only [List.nodup_cons, List.mem_cons, not_or]
    refine ⟨⟨by decide, fun hstart => ?_⟩, fun hmain => ?_, hcode.nodup⟩
    · exact hshell "_start" hstart (by decide)
    · exact hshell "main" hmain (by decide)
  case jumps =>
    intro target hjump
    rw [hdefinitions]
    exact List.mem_cons_of_mem _ (List.mem_cons_of_mem _ (mem_labels_of_jump hcode hlisted hjump))
  case calls =>
    intro target hcall hmain
    have hexternal := ((call_mem_uses_iff hcode hlisted).1 hcall).resolve_left hmain
    obtain ⟨hreserved, hlabel⟩ := not_mem_of_isLinkable (hcode.isLinkable hexternal)
    constructor
    · rw [hdefinitions]
      intro hdefined
      rcases List.mem_cons.1 hdefined with rfl | hdefined
      · exact hreserved (by decide)
      · rcases List.mem_cons.1 hdefined with rfl | hdefined
        · exact hmain rfl
        · exact hlabel (hcode.made target hdefined)
    · have hnodup : (externals listed).Nodup := hsorted.imp fun hlt heq => by
        subst heq
        exact String.lt_irrefl _ hlt
      rw [hnodup.count, if_pos ((hmem target).2 hexternal)]
  case routines =>
    intro name hname
    have hexternal := (hmem name).1 hname
    refine ⟨?_, hcode.known name hexternal, recipe?_of_external hexternal⟩
    exact (call_mem_uses_iff hcode hlisted).2 (.inr hexternal)
  case increasing => exact hsorted

end

end Asm

namespace Stmt

variable {builtins : Builtins} {program : Stmt} {after : Context}

/-- The code of a well-typed program is linked. -/
theorem isLinked_toIr (htyped : WellTyped builtins.signature? program after)
    (hdeclared : program.DeclaresValues) : IsLinked builtins program.toIr where
  nodup := (program.labelled_lower .initial).nodup
  made := (program.labelled_lower .initial).made
  targets := program.jumpsWithin_lower .initial
  known := by
    intro name hname
    obtain ⟨command, hmem, hexternal⟩ := List.mem_filterMap.1 hname
    have hstart : Context.Covers builtins (fun _ => True) builtins.signature? :=
      ⟨fun _ _ _ _ => trivial, fun _ _ hfunction _ => hfunction⟩
    have hactions :=
      (htyped.typedUnder hstart (keptBy_covers hdeclared fun _ _ => trivial)).2
    cases command with
    | call destination function arguments =>
        rw [external?] at hexternal
        split at hexternal
        · obtain rfl := Option.some.inj hexternal
          obtain ⟨context, parameters, result, hcontext, hfunction, -⟩ :=
            exists_of_call hactions hmem
          exact Option.isSome_of_eq_some (hcontext.functions function _ hfunction id)
        · cases hexternal
    | copy | label | jump | jumpIf | jumpUnless => cases hexternal

end Stmt

namespace Compiler

variable {builtins : Builtins} {source : String} {listed : List String}

/-- The symbols of a compiled program never clash and always resolve, whatever routines the host
has announced: a table of built-in names holds no others than names that can be linked to. -/
theorem compileWith_resolves (builtins : Builtins) (source : String) (listed : List String)
    (hcompiled : compileWith builtins source = .ok listed) : Resolves builtins listed := by
  obtain ⟨program, hparse, hcheck, hlisting⟩ := compileWith_eq_ok.1 hcompiled
  obtain ⟨after, htyped⟩ := Stmt.wellTyped_of_checkProgram hcheck
  have hdeclared := (Stmt.isSpelled_of_parse hparse).declaresValues
  exact (Stmt.isLinked_toIr htyped hdeclared).resolves hlisting

/-- A source that calls two routines, in both branches of a conditional and in a loop. -/
def pollingSource : String :=
  "if ready() then tick(); else while ready() do tick();"

def polling : Stmt :=
  .conditional (.call "ready" []) (.expression (.call "tick" []))
    (.loop (.call "ready" []) (.expression (.call "tick" [])))

theorem parse_polling : parse pollingSource = .ok polling := by
  cbv

theorem compileWith_resolves_polling :
    ∃ builtins, Builtins.operators.announce
        [("tick", .function [] .void), ("ready", .function [] .bool)] = .ok builtins ∧
      ∃ listed, compileWith builtins pollingSource = .ok listed ∧ Resolves builtins listed ∧
        definitions listed =
          ["_start", "main", "else1", "whileHead1", "whileEnd1", "ifEnd1"] ∧
        externals listed = ["ready", "tick"] := by
  refine ⟨_, rfl, _, compileWith_eq_ok.2 ⟨polling, parse_polling, rfl, rfl⟩, ?_, ?_, ?_⟩
  · exact compileWith_resolves _ pollingSource _
      (compileWith_eq_ok.2 ⟨polling, parse_polling, rfl, rfl⟩)
  · decide
  · decide

end Compiler

end WhileCompiler
