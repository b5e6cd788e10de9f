import Mathlib.Data.List.Nodup
import WhileCompiler.Proofs.Ir.ControlFlow

/-!
# Runs of typed code

Wherever a run of typed code gets, the context of that place is true: every variable that it shows
has been written before, unless it is built in, and has a value that its type allows.  Calls have to
keep to the types as well.
-/

namespace WhileCompiler

open Semantics

/-- The numbers that stand for values of a type. -/
abbrev Ranges := Ty → Int32 → Prop

namespace Ranges

variable {σ ε : Type}

/-- Literals are in the ranges, and functions give values in the ranges for such arguments. -/
structure AreKept (ranges : Ranges) (builtins : Builtins) (calls : Calls σ ε) : Prop where
  int : ∀ value, ranges .int value
  bool : ∀ value, ranges .bool (flag value)
  call : ∀ function parameters result arguments state value final,
    builtins.signature? function = some (.function parameters result) →
    List.Forall₂ (fun argument type => ranges type argument) arguments parameters →
    calls function arguments state = (.ok value, final) → ranges result value

end Ranges

namespace Ir

/-- What a context says about variables is true, if these have been written so far. -/
structure Conforms (builtins : Builtins) (ranges : Ranges) (written : String → Prop)
    (context : Context) (values : String → Int32) : Prop where
  ranges : ∀ name type, context name = some type → ranges type (values name)
  written : ∀ name, (context name).isSome → builtins.signature? name = none → written name

variable {σ ε : Type} {builtins : Builtins} {ranges : Ranges} {calls : Calls σ ε}

/-! ## Values -/

section

variable {written : String → Prop} {context later : Context} {values : String → Int32}

theorem Conforms.weaken (hconforms : Conforms builtins ranges written later values)
    (hkept : context.IsKeptIn later) : Conforms builtins ranges written context values where
  ranges name type hname := hconforms.ranges name type (hkept name type hname)
  written name hname := by
    obtain ⟨type, htype⟩ := Option.isSome_iff_exists.1 hname
    exact hconforms.written name (Option.isSome_of_eq_some (hkept name type htype))

theorem Conforms.mono {more : String → Prop}
    (hconforms : Conforms builtins ranges written context values)
    (hmore : ∀ name, written name → more name) :
    Conforms builtins ranges more context values :=
  ⟨hconforms.ranges, fun name hname hnone => hmore name (hconforms.written name hname hnone)⟩

theorem Conforms.assign {point : Point}
    (hconforms : Conforms builtins ranges written context point.values) {destination : String}
    {type : Ty} {value : Int32} (hvalue : ranges type value) :
    Conforms builtins ranges (fun name => written name ∨ name = destination)
      (context.extend destination type) (point.assign destination value).values := by
  constructor
  · intro name found hname
    by_cases hsame : name = destination
    · rw [Context.extend, if_pos hsame] at hname
      obtain rfl := Option.some.inj hname
      have hassigned : (point.assign destination value).values name = value := if_pos hsame
      rwa [hassigned]
    · rw [Context.extend_of_ne hsame] at hname
      have hother : (point.assign destination value).values name = point.values name :=
        if_neg hsame
      rw [hother]
      exact hconforms.ranges name found hname
  · intro name hname hnone
    by_cases hsame : name = destination
    · exact .inr hsame
    · rw [Context.extend_of_ne hsame] at hname
      exact .inl (hconforms.written name hname hnone)

theorem Conforms.read (hconforms : Conforms builtins ranges written context values)
    (hkept : ranges.AreKept builtins calls) {value : Value} {type : Ty}
    (htyped : value.HasType context type) : ranges type (value.read values) := by
  cases htyped with
  | int => exact hkept.int _
  | bool => exact hkept.bool _
  | var hname => exact hconforms.ranges _ _ hname

theorem Conforms.readAll (hconforms : Conforms builtins ranges written context values)
    (hkept : ranges.AreKept builtins calls) {arguments : List Value} {types : List Ty}
    (htyped : List.Forall₂ (Value.HasType context) arguments types) :
    List.Forall₂ (fun argument type => ranges type argument)
      (arguments.map (Value.read values)) types :=
  List.forall₂_map_left_iff.2 (htyped.imp fun _ _ hvalue => hconforms.read hkept hvalue)

end

/-! ## Code -/

/-- Code that has a context for every label, and that may be entered at its start where nothing but
the built-in names is visible. -/
structure IsTyped (builtins : Builtins) (labels : LabelContexts) (after : Context)
    (code : List Command) : Prop where
  names : labels.map Prod.fst = Ir.labels code
  nodup : (Ir.labels code).Nodup
  flows : Flows builtins labels after builtins.signature? code

section

variable {labels : LabelContexts} {after : Context} {code : List Command}
  {point next last : Point} {state middle final : σ}

theorem eq_of_mem_labels {name : String} {first second : Context}
    (hnodup : (labels.map Prod.fst).Nodup) (hfirst : (name, first) ∈ labels)
    (hsecond : (name, second) ∈ labels) : first = second := by
  have hpair := List.inj_on_of_nodup_map hnodup hfirst hsecond rfl
  exact congrArg Prod.snd hpair

/-- A jump leads to where the context of its label holds. -/
theorem IsTyped.flows_of_jump (hcode : IsTyped builtins labels after code) {target : String}
    {expected : Context} (htarget : (target, expected) ∈ labels) {again : Bool}
    (hjump : point.jump code target state = (.done (next, again) middle : Outcome σ ε _)) :
    next.values = point.values ∧
      Flows builtins labels after expected (code.drop next.position) := by
  rw [Point.jump] at hjump
  split at hjump
  · next position hposition =>
      obtain ⟨hlt, hlabel, -⟩ := List.idxOf?_eq_some_iff.1 hposition
      obtain ⟨found, hfound, hflows⟩ :=
        hcode.flows.behindLabel (List.getElem?_eq_some_iff.2 ⟨hlt, hlabel⟩)
      obtain rfl := eq_of_mem_labels (hcode.names ▸ hcode.nodup) htarget hfound
      cases hjump
      exact ⟨rfl, hflows⟩
  · cases hjump

/-- The context of the place that a run has got to is true. -/
structure Typed (builtins : Builtins) (ranges : Ranges) (labels : LabelContexts) (after : Context)
    (code : List Command) (written : String → Prop) (point : Point) (context : Context) :
    Prop where
  flows : Flows builtins labels after context (code.drop point.position)
  conforms : Conforms builtins ranges written context point.values

/-- A variable that the next command of a run assigns. -/
def Assigns (code : List Command) (point : Point) (name : String) : Prop :=
  ∃ command, code[point.position]? = some command ∧ command.assigned? = some name

theorem drop_eq_cons {position : Nat} {command : Command}
    (hcommand : code[position]? = some command) :
    code.drop position = command :: code.drop (position + 1) := by
  obtain ⟨hlt, rfl⟩ := List.getElem?_eq_some_iff.1 hcommand
  exact List.drop_eq_getElem_cons hlt

/-- A run goes on behind a call only if the call has returned. -/
theorem eq_assign_of_step_call {destination function : String} {arguments : List Value}
    (hcommand : code[point.position]? = some (.call destination function arguments))
    (hstep : point.step calls code state = .done (next, true) middle) :
    ∃ value, calls function (arguments.map (Value.read point.values)) state = (.ok value, middle) ∧
      next = point.assign destination value := by
  simp only [Point.step, hcommand] at hstep
  unfold Calls.invoke at hstep
  split at hstep
  · next value final hcall =>
      cases hstep
      exact ⟨value, hcall, rfl⟩
  · cases hstep

/-- Where a run goes on, a context is true again. -/
theorem IsTyped.step (hcode : IsTyped builtins labels after code)
    (hkept : ranges.AreKept builtins calls) {written : String → Prop} {context : Context}
    (htyped : Typed builtins ranges labels after code written point context)
    (hstep : point.step calls code state = .done (next, true) middle) :
    ∃ following, Typed builtins ranges labels after code
      (fun name => written name ∨ Assigns code point name) next following := by
  -- Whatever the command does, what was written before stays written.
  have hstill : Conforms builtins ranges (fun name => written name ∨ Assigns code point name)
      context point.values := htyped.conforms.mono fun name hname => .inl hname
  have hassigned {destination : String} {type : Ty} {value : Int32} {command : Command}
      (hcommand : code[point.position]? = some command)
      (hassigns : command.assigned? = some destination) (hvalue : ranges type value) :
      Conforms builtins ranges (fun name => written name ∨ Assigns code point name)
        (context.extend destination type) (point.assign destination value).values := by
    refine (htyped.conforms.assign hvalue).mono fun name hname => hname.imp_right ?_
    rintro rfl
    exact ⟨command, hcommand, hassigns⟩
  have hjumped {target : String} {expected : Context} (htarget : (target, expected) ∈ labels)
      (hexpected : expected.IsKeptIn context)
      (hjump : point.jump code target state = (.done (next, true) middle : Outcome σ ε _)) :
      ∃ following, Typed builtins ranges labels after code
        (fun name => written name ∨ Assigns code point name) next following := by
    obtain ⟨hvalues, hflows⟩ := hcode.flows_of_jump htarget hjump
    exact ⟨expected, hflows, hvalues ▸ hstill.weaken hexpected⟩
  -- The rule by which the flow goes on tells the command, and what is true behind it.
  have hflows := htyped.flows
  cases hcommand : code[point.position]? with
  | none =>
      rw [Point.step, hcommand] at hstep
      cases hstep
  | some command =>
      rw [drop_eq_cons hcommand] at hflows
      cases hflows with
      | copy hvalue hrest =>
          rw [step_copy hcommand] at hstep
          cases hstep
          exact ⟨_, hrest, hassigned hcommand rfl (hstill.read hkept hvalue)⟩
      | call hfunction harguments hrest =>
          obtain ⟨value, hcall, rfl⟩ := eq_assign_of_step_call hcommand hstep
          have hvalue := hkept.call _ _ _ _ _ _ _ hfunction
            (hstill.readAll hkept harguments) hcall
          exact ⟨_, hrest, hassigned hcommand rfl hvalue⟩
      | label hlabel hexpected hrest =>
          rw [step_label hcommand] at hstep
          cases hstep
          exact ⟨_, hrest, hstill.weaken hexpected⟩
      | jump htarget hexpected _ =>
          simp only [Point.step, hcommand] at hstep
          exact hjumped htarget hexpected hstep
      | jumpIf _ htarget hexpected hrest =>
          simp only [Point.step, hcommand] at hstep
          split at hstep
          · cases hstep
            exact ⟨_, hrest, hstill⟩
          · exact hjumped htarget hexpected hstep
      | jumpUnless _ htarget hexpected hrest =>
          simp only [Point.step, hcommand] at hstep
          split at hstep
          · exact hjumped htarget hexpected hstep
          · cases hstep
            exact ⟨_, hrest, hstill⟩

/-! ## Runs -/

/-- Some command that a run executes on its way assigns the variable. -/
def AssignedWithin (calls : Calls σ ε) (code : List Command) (count : Nat) (point : Point)
    (state : σ) (last : Point) (final : σ) (name : String) : Prop :=
  ∃ earlier later between middle, earlier + (later + 1) = count ∧
    Steps calls code earlier point state between middle ∧ Assigns code between name ∧
      Steps calls code (later + 1) between middle last final

theorem AssignedWithin.later {count : Nat} {name : String}
    (hstep : point.step calls code state = .done (next, true) middle)
    (hassigned : AssignedWithin calls code count next middle last final name) :
    AssignedWithin calls code (count + 1) point state last final name := by
  obtain ⟨earlier, later, between, reached, rfl, hearlier, hassigns, hlater⟩ := hassigned
  exact ⟨earlier + 1, later, between, reached, by omega, .step hstep hearlier, hassigns, hlater⟩

/-- The contexts are true throughout a run. -/
theorem IsTyped.steps (hcode : IsTyped builtins labels after code)
    (hkept : ranges.AreKept builtins calls) {count : Nat}
    (hsteps : Steps calls code count point state last final) {written : String → Prop}
    {context : Context} (htyped : Typed builtins ranges labels after code written point context) :
    ∃ following, Typed builtins ranges labels after code
      (fun name => written name ∨ AssignedWithin calls code count point state last final name)
      last following := by
  induction hsteps generalizing written context with
  | refl => exact ⟨context, htyped.flows, htyped.conforms.mono fun _ hname => .inl hname⟩
  | step hstep hrest ih =>
      obtain ⟨between, hbetween⟩ := hcode.step hkept htyped hstep
      obtain ⟨following, hflows, hconforms⟩ := ih hbetween
      refine ⟨following, hflows, hconforms.mono fun name hname => ?_⟩
      rcases hname with (hname | hassigns) | hassigned
      · exact .inl hname
      · exact .inr ⟨0, _, _, _, by omega, .refl, hassigns, .step hstep hrest⟩
      · exact .inr (hassigned.later hstep)

/-- A run from the start, whatever the variables are then. -/
theorem IsTyped.run (hcode : IsTyped builtins labels after code)
    (hkept : ranges.AreKept builtins calls) {values : String → Int32}
    (hvalues : ∀ name type, builtins.signature? name = some type → ranges type (values name))
    {count : Nat} (hsteps : Steps calls code count ⟨0, values⟩ state last final) :
    ∃ context, Typed builtins ranges labels after code
      (AssignedWithin calls code count ⟨0, values⟩ state last final) last context := by
  have hstart : Typed builtins ranges labels after code (fun _ => False) ⟨0, values⟩
      builtins.signature? := by
    refine ⟨hcode.flows, hvalues, fun name hname hnone => ?_⟩
    rw [hnone] at hname
    cases hname
  obtain ⟨context, hflows, hconforms⟩ := hcode.steps hkept hsteps hstart
  exact ⟨context, hflows, hconforms.mono fun _ hname => hname.resolve_left id⟩

/-- A command reads only what is visible. -/
theorem Flows.isSome_of_reads {context : Context} {command : Command} {rest : List Command}
    (hflows : Flows builtins labels after context (command :: rest)) {name : String}
    (hread : name ∈ command.reads) : (context name).isSome := by
  cases hflows with
  | copy hvalue _ => exact hvalue.isSome_of_reads hread
  | call _ harguments _ => exact isSome_of_reads_of_forall₂ harguments hread
  | label _ _ _ => cases hread
  | jump _ _ _ => cases hread
  | jumpIf hcondition _ _ _ => exact hcondition.isSome_of_reads hread
  | jumpUnless hcondition _ _ _ => exact hcondition.isSome_of_reads hread

end

end Ir

end WhileCompiler
