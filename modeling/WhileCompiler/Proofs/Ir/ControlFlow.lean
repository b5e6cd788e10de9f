import Mathlib.Data.List.Forall2
import WhileCompiler.Builtins
import WhileCompiler.Proofs.Asm.EmissionFaults
import WhileCompiler.Proofs.Ir.Placement
import WhileCompiler.Proofs.Typing.Contexts

/-!
# Types along the control flow

Three-address code has no declarations, but it can be given a context for every place in it: which
variables have been assigned on every way to that place, and what types their values have.  A label
stands in one context, and every jump to it must come from a place where at least this context
holds.  What the contexts say is then true throughout every run.
-/

namespace WhileCompiler.Ir

open Semantics

/-! ## Values -/

/-- The type of a value in a context.  Truth values are numbers as well. -/
inductive Value.HasType (context : Context) : Value → Ty → Prop
  | int {value : Int32} : HasType context (.constant value) .int
  | bool {value : Bool} : HasType context (.constant (flag value)) .bool
  | var {name : String} {type : Ty} :
      context name = some type → HasType context (.variable name) type

section

variable {context later : Context} {value : Value} {values : List Value} {type : Ty}
  {types : List Ty}

theorem Value.HasType.mono (htyped : value.HasType context type)
    (hkept : context.IsKeptIn later) : value.HasType later type := by
  cases htyped with
  | int => exact .int
  | bool => exact .bool
  | var hname => exact .var (hkept _ _ hname)

/-- What a typed value reads is visible. -/
theorem Value.HasType.isSome_of_reads (htyped : value.HasType context type) {name : String}
    (hread : name ∈ value.reads) : (context name).isSome := by
  cases htyped with
  | int => cases hread
  | bool => cases hread
  | var hname =>
      obtain rfl := List.mem_singleton.1 hread
      exact Option.isSome_of_eq_some hname

theorem isSome_of_reads_of_forall₂ (htyped : List.Forall₂ (Value.HasType context) values types)
    {name : String} (hread : name ∈ values.flatMap Value.reads) : (context name).isSome := by
  induction htyped with
  | nil => cases hread
  | cons hfirst _ ih =>
      rw [List.flatMap_cons, List.mem_append] at hread
      rcases hread with hread | hread
      · exact hfirst.isSome_of_reads hread
      · exact ih hread

end

/-! ## Code -/

/-- The context of every label. -/
abbrev LabelContexts := List (String × Context)

/-- Code that may be entered where a context holds, and that leaves behind at least another one.
What follows a jump cannot be reached from it, so that any context will do there. -/
inductive Flows (builtins : Builtins) (labels : LabelContexts) (after : Context) :
    Context → List Command → Prop
  | nil {context : Context} : after.IsKeptIn context → Flows builtins labels after context []
  | copy {context : Context} {destination : String} {value : Value} {type : Ty}
      {rest : List Command} : value.HasType context type →
      Flows builtins labels after (context.extend destination type) rest →
      Flows builtins labels after context (.copy destination value :: rest)
  | call {context : Context} {destination function : String} {arguments : List Value}
      {parameters : List Ty} {result : Ty} {rest : List Command} :
      builtins.signature? function = some (.function parameters result) →
      List.Forall₂ (Value.HasType context) arguments parameters →
      Flows builtins labels after (context.extend destination result) rest →
      Flows builtins labels after context (.call destination function arguments :: rest)
  | label {context expected : Context} {name : String} {rest : List Command} :
      (name, expected) ∈ labels → expected.IsKeptIn context →
      Flows builtins labels after expected rest →
      Flows builtins labels after context (.label name :: rest)
  | jump {context expected unreached : Context} {target : String} {rest : List Command} :
      (target, expected) ∈ labels → expected.IsKeptIn context →
      Flows builtins labels after unreached rest →
      Flows builtins labels after context (.jump target :: rest)
  | jumpIf {context expected : Context} {target : String} {condition : Value}
      {rest : List Command} : condition.HasType context .bool →
      (target, expected) ∈ labels → expected.IsKeptIn context →
      Flows builtins labels after context rest →
      Flows builtins labels after context (.jumpIf target condition :: rest)
  | jumpUnless {context expected : Context} {target : String} {condition : Value}
      {rest : List Command} : condition.HasType context .bool →
      (target, expected) ∈ labels → expected.IsKeptIn context →
      Flows builtins labels after context rest →
      Flows builtins labels after context (.jumpUnless target condition :: rest)

section

variable {builtins : Builtins} {labels more : LabelContexts} {context later after : Context}
  {code left right : List Command}

/-- Code may be entered where more is known. -/
theorem Flows.strengthen (hcode : Flows builtins labels after context code)
    (hkept : context.IsKeptIn later) : Flows builtins labels after later code := by
  induction hcode generalizing later with
  | nil hafter => exact .nil (hafter.trans hkept)
  | copy hvalue _ ih => exact .copy (hvalue.mono hkept) (ih (hkept.extend _ _))
  | call hfunction harguments _ ih =>
      exact .call hfunction (harguments.imp fun _ _ h => h.mono hkept) (ih (hkept.extend _ _))
  | label hlabel hexpected hrest =>
      exact .label hlabel (hexpected.trans hkept) hrest
  | jump hlabel hexpected hrest =>
      exact .jump hlabel (hexpected.trans hkept) hrest
  | jumpIf hcondition hlabel hexpected _ ih =>
      exact .jumpIf (hcondition.mono hkept) hlabel
        (hexpected.trans hkept) (ih hkept)
  | jumpUnless hcondition hlabel hexpected _ ih =>
      exact .jumpUnless (hcondition.mono hkept) hlabel
        (hexpected.trans hkept) (ih hkept)

/-- Code that is entered behind other code. -/
theorem Flows.append {between : Context} (hleft : Flows builtins labels between context left)
    (hright : Flows builtins labels after between right) :
    Flows builtins labels after context (left ++ right) := by
  induction hleft with
  | nil hbetween => exact hright.strengthen hbetween
  | copy hvalue _ ih => exact .copy hvalue ih
  | call hfunction harguments _ ih => exact .call hfunction harguments ih
  | label hlabel hexpected _ ih => exact .label hlabel hexpected ih
  | jump hlabel hexpected _ ih => exact .jump hlabel hexpected ih
  | jumpIf hcondition hlabel hexpected _ ih => exact .jumpIf hcondition hlabel hexpected ih
  | jumpUnless hcondition hlabel hexpected _ ih => exact .jumpUnless hcondition hlabel hexpected ih

/-- Some of what code leaves behind may be forgotten. -/
theorem Flows.forget {less : Context} (hcode : Flows builtins labels after context code)
    (hkept : less.IsKeptIn after) : Flows builtins labels less context code :=
  List.append_nil code ▸ hcode.append (.nil hkept)

theorem Flows.mono (hcode : Flows builtins labels after context code) (hsubset : labels ⊆ more) :
    Flows builtins more after context code := by
  induction hcode with
  | nil hafter => exact .nil hafter
  | copy hvalue _ ih => exact .copy hvalue ih
  | call hfunction harguments _ ih => exact .call hfunction harguments ih
  | label hlabel hexpected _ ih => exact .label (hsubset hlabel) hexpected ih
  | jump hlabel hexpected _ ih => exact .jump (hsubset hlabel) hexpected ih
  | jumpIf hcondition hlabel hexpected _ ih =>
      exact .jumpIf hcondition (hsubset hlabel) hexpected ih
  | jumpUnless hcondition hlabel hexpected _ ih =>
      exact .jumpUnless hcondition (hsubset hlabel) hexpected ih

/-- Behind a label, the code may be entered in the context of the label. -/
theorem Flows.behindLabel (hcode : Flows builtins labels after context code) {position : Nat}
    {name : String} (hlabel : code[position]? = some (.label name)) :
    ∃ expected, (name, expected) ∈ labels ∧
      Flows builtins labels after expected (code.drop (position + 1)) := by
  induction hcode generalizing position with
  | nil hafter => cases hlabel
  | label hmem _ hrest ih =>
      cases position with
      | zero =>
          cases hlabel
          exact ⟨_, hmem, hrest⟩
      | succ position => exact ih hlabel
  | copy _ _ ih | call _ _ _ ih | jump _ _ _ ih | jumpIf _ _ _ _ ih | jumpUnless _ _ _ _ ih =>
      cases position with
      | zero => cases hlabel
      | succ position => exact ih hlabel

end

end WhileCompiler.Ir
