import WhileCompiler.Proofs.Semantics.NestedScopes
import WhileCompiler.Proofs.Semantics.ValueRelations
import WhileCompiler.Proofs.Typing.BuiltinNames
import WhileCompiler.Proofs.Typing.Checking
import WhileCompiler.Proofs.Typing.Contexts

/-!
# Scopes can be erased

A well-typed program never declares a name that is visible already, and never reads one that is not.
It therefore does the same whether its variables live in nested frames or all in one store.  The
calls may mean different things in both, as long as related arguments lead to related results.
-/

namespace WhileCompiler

open Semantics

/-! ## One store for all scopes -/

/-- The flat store holds the value of every visible name. -/
def Erases (related : ValueRelation) (context : Context) (scopes : Scopes Int32)
    (values : String → Int32) : Prop :=
  ∀ name type, context name = some type →
    ∃ value, scopes.lookup? name = some value ∧ related type value (values name)

/-- Only the innermost frame binds other names than before, and none that was visible. -/
def Grown (context : Context) (before after : Scopes Int32) : Prop :=
  ∃ top grown below, before.domains = top :: below ∧ after.domains = grown :: below ∧
    ∀ name type, context name = some type → grown name = top name

section

variable {related : ValueRelation} {context between after : Context}
  {before middle last scopes : Scopes Int32} {values : String → Int32} {name : String}
  {value other : Int32} {type : Ty}

theorem grown_of_domains_eq (hdomains : last.domains = before.domains) :
    Grown context before last := by
  obtain ⟨top, below, hbefore⟩ := List.exists_cons_of_ne_nil before.domains_ne_nil
  exact ⟨top, top, below, hbefore, hdomains.trans hbefore, fun _ _ _ => rfl⟩

theorem Grown.trans (hfirst : Grown context before middle) (hsecond : Grown between middle last)
    (hkept : context.IsKeptIn between) : Grown context before last := by
  obtain ⟨top, grown, below, hbefore, hmiddle, hgrown⟩ := hfirst
  obtain ⟨top', grown', below', hmiddle', hlast, hgrown'⟩ := hsecond
  obtain ⟨rfl, rfl⟩ := List.cons.inj (hmiddle.symm.trans hmiddle')
  refine ⟨top, grown', below, hbefore, hlast, fun name type hname => ?_⟩
  calc
    grown' name = grown name := hgrown' name type (hkept name type hname)
    _ = top name := hgrown name type hname

theorem grown_declare (hname : context name = none) :
    Grown context scopes (scopes.declare name value) := by
  obtain ⟨top, below, hdomains, hdeclare⟩ := scopes.domains_declare name value
  refine ⟨top, _, below, hdomains, hdeclare, fun found type hfound => ?_⟩
  have hne : found ≠ name := by
    rintro rfl
    rw [hname] at hfound
    cases hfound
  simp [hne]

theorem Erases.declare (herases : Erases related context scopes values)
    (hrelated : related type value other) :
    Erases related (context.extend name type) (scopes.declare name value)
      (Storage.flat.declare values name other) := by
  intro found foundType hfound
  rw [Scopes.lookup?_declare]
  by_cases heq : found = name
  · rw [heq, Context.extend, if_pos rfl] at hfound
    obtain rfl := Option.some.inj hfound
    exact ⟨value, if_pos heq, by simpa [heq, Storage.flat] using hrelated⟩
  · rw [Context.extend_of_ne heq] at hfound
    simpa [heq, Storage.flat] using herases found foundType hfound

theorem Erases.bound (herases : Erases related context scopes values)
    (hname : context name = some type) : scopes.lookup? name ≠ none := by
  obtain ⟨value, hvalue, -⟩ := herases name type hname
  rw [hvalue]
  exact Option.some_ne_none _

theorem Erases.assign (herases : Erases related context scopes values)
    (hname : context name = some type) (hrelated : related type value other) :
    Erases related context (Storage.nested.assign scopes name value)
      (Storage.flat.assign values name other) := by
  intro found foundType hfound
  rw [Storage.lookup?_assign value (herases.bound hname)]
  by_cases heq : found = name
  · rw [heq, hname] at hfound
    obtain rfl := Option.some.inj hfound
    exact ⟨value, if_pos heq, by simpa [heq, Storage.flat] using hrelated⟩
  · simpa [heq, Storage.flat] using herases found foundType hfound

/-- What is left behind at the end of a block is what was there before. -/
theorem Erases.leave (herases : Erases related after last values)
    (hgrown : Grown context scopes.push last) (hkept : context.IsKeptIn after) :
    Erases related context last.pop values ∧ last.pop.domains = scopes.domains := by
  obtain ⟨top, grown, below, hpush, hlast, hsame⟩ := hgrown
  obtain ⟨rfl, rfl⟩ := List.cons.inj hpush
  refine ⟨fun name type hname => ?_, Scopes.domains_pop hlast scopes.domains_ne_nil⟩
  rw [Scopes.lookup?_pop hlast scopes.domains_ne_nil (hsame name type hname)]
  exact herases name type (hkept name type hname)

end

/-- The built-in names as variables, each of which is zero. -/
def Builtins.scopes (builtins : Builtins) : Scopes Int32 :=
  .ofRoot ⟨builtins.signatures.entries.map fun (name, _) => (name, 0)⟩

theorem Builtins.lookup?_scopes (builtins : Builtins) (name : String) :
    builtins.scopes.lookup? name = (builtins.signature? name).map fun _ => 0 := by
  have hroot := lookup_map_values (fun _ : Ty => (0 : Int32)) builtins.signatures.entries name
  simp only [Scopes.lookup?, Scopes.frames, scopes, Scopes.ofRoot, List.nil_append,
    List.findSome?_cons, List.findSome?_nil, Bindings.get?, hroot, signature?]
  split
  · next hfound => exact hfound.symm
  · next hnone => exact hnone.symm

theorem Builtins.erases_scopes {related : ValueRelation} (builtins : Builtins)
    (hzero : ∀ name type, builtins.signature? name = some type → related type 0 0) :
    Erases related builtins.signature? builtins.scopes fun _ => 0 := by
  intro name type hname
  refine ⟨0, ?_, hzero name type hname⟩
  rw [builtins.lookup?_scopes, hname]
  rfl

/-! ## Running in both -/

namespace Stmt

variable {σ ε : Type} {related : ValueRelation} {invariant : Context → Prop}
  {left right : Calls σ ε} {context after : Context} {limit : Nat}

/-- Both computations end in a context, in scopes that have grown out of the ones before. -/
abbrev Erased (related : ValueRelation) (context after : Context) (scopes : Scopes Int32)
    (nested : Outcome σ ε (Scopes Int32)) (flat : Outcome σ ε (String → Int32)) : Prop :=
  nested.Matches
    (fun last values => Erases related after last values ∧ Grown context scopes last) flat

/-- Both computations end where the frames are the same as before. -/
abbrev ErasedWithin (related : ValueRelation) (context : Context) (scopes : Scopes Int32)
    (nested : Outcome σ ε (Scopes Int32)) (flat : Outcome σ ε (String → Int32)) : Prop :=
  nested.Matches
    (fun last values => Erases related context last values ∧ last.domains = scopes.domains) flat

theorem ErasedWithin.erased {scopes : Scopes Int32} {nested : Outcome σ ε (Scopes Int32)}
    {flat : Outcome σ ε (String → Int32)}
    (hwithin : ErasedWithin related context scopes nested flat) :
    Erased related context context scopes nested flat :=
  hwithin.mono fun _ _ ⟨herases, hdomains⟩ => ⟨herases, grown_of_domains_eq hdomains⟩

/-- What runs in a frame of its own leaves the frames as they were. -/
theorem Erased.inFrame {scopes : Scopes Int32} {nested : Outcome σ ε (Scopes Int32)}
    {flat : Outcome σ ε (String → Int32)}
    (hinner : Erased related context after scopes.push nested flat)
    (hkept : context.IsKeptIn after) :
    ErasedWithin related context scopes
      (nested.bind fun last state => .done (Storage.nested.leave last) state)
      (flat.bind fun values state => .done (Storage.flat.leave values) state) := by
  refine hinner.bind ?_
  rintro last values state ⟨herases, hgrown⟩
  exact .done (herases.leave hgrown hkept)

/-- Evaluating an expression is the same in both, up to the relation of values. -/
theorem matches_eval {expression : Expr} {type : Ty} {scopes : Scopes Int32}
    {values : String → Int32} (htyped : expression.HasType context type)
    (hcalls : Corresponds related invariant left right) (hcontext : invariant context)
    (herases : Erases related context scopes values) (state : σ) :
    (expression.eval left (Storage.nested.read scopes) state).Matches (related type)
      (expression.eval right (Storage.flat.read values) state) := by
  refine htyped.matches_eval hcalls hcontext (fun name type hname => ?_) state
  obtain ⟨value, hvalue, hrelated⟩ := herases name type hname
  simpa [Storage.nested, Storage.flat, hvalue] using hrelated

/-- A loop goes round in the frames that it began in. -/
theorem erased_loop {condition : Expr} {body : Stmt}
    (hcondition : condition.HasType context .bool) (hkept : context.IsKeptIn after)
    (hcalls : Corresponds related invariant left right) (hcontext : invariant context)
    (hbody : ∀ scopes values state, Erases related context scopes values →
      Erased related context after scopes (body.exec .nested left limit scopes state)
        (body.exec .flat right limit values state))
    {scopes : Scopes Int32} {values : String → Int32} (state : σ)
    (herases : Erases related context scopes values) :
    ErasedWithin related context scopes
      ((Stmt.loop condition body).exec .nested left limit scopes state)
      ((Stmt.loop condition body).exec .flat right limit values state) := by
  -- A round leaves the frames in which the loop began, so that the next one may begin there.
  refine Outcome.Matches.iterate ?_ limit ⟨herases, rfl⟩
  rintro last values state ⟨herases, hdomains⟩
  refine (matches_eval hcondition hcalls hcontext herases state).bind ?_
  intro test test' state hrelated
  by_cases hzero : test = 0
  · rw [if_pos hzero, if_pos ((hcalls.test _ _ hrelated).1 hzero)]
    exact .done ⟨⟨herases, hdomains⟩, rfl⟩
  · rw [if_neg hzero, if_neg (mt (hcalls.test _ _ hrelated).2 hzero)]
    refine (hbody last.push values state herases).bind ?_
    rintro inner values state ⟨hinner, hgrown⟩
    obtain ⟨hleave, hpop⟩ := hinner.leave hgrown hkept
    exact .done ⟨⟨hleave, hpop.trans hdomains⟩, rfl⟩

mutual

/-- A well-typed statement does the same whether scopes are kept apart or not. -/
theorem WellTyped.erased {context after : Context} {statement : Stmt}
    (htyped : WellTyped context statement after)
    (hcalls : Corresponds related invariant left right) (hcontext : invariant context)
    (hkept : KeptBy invariant statement.actions) {scopes : Scopes Int32}
    {values : String → Int32} (herases : Erases related context scopes values) (limit : Nat)
    (state : σ) :
    Erased related context after scopes (statement.exec .nested left limit scopes state)
      (statement.exec .flat right limit values state) := by
  cases statement with
  | empty =>
      cases htyped
      exact .done ⟨herases, grown_of_domains_eq rfl⟩
  | block body =>
      cases htyped with
      | block hbody =>
          -- A frame without bindings hides nothing.
          have hentered : Erases related context scopes.push values := herases
          have hinner := hbody.erased hcalls hcontext hkept hentered limit state
          exact (hinner.inFrame hbody.isKeptIn).erased
  | declaration name type value =>
      cases htyped with
      | declaration hname hvalue =>
          refine (matches_eval hvalue hcalls hcontext herases state).bind ?_
          intro value value' state hrelated
          exact .done ⟨herases.declare hrelated, grown_declare hname⟩
  | assignment name value =>
      cases htyped with
      | assignment hname hvalue =>
          refine (matches_eval hvalue hcalls hcontext herases state).bind ?_
          intro value value' state hrelated
          have hdomains := Storage.domains_assign value (herases.bound hname)
          exact .done ⟨herases.assign hname hrelated, grown_of_domains_eq hdomains⟩
  | conditional condition thenBranch elseBranch =>
      cases htyped with
      | conditional hcondition hthen helse =>
          have hentered : Erases related context scopes.push values := herases
          refine (matches_eval hcondition hcalls hcontext herases state).bind ?_
          intro test test' state hrelated
          by_cases hzero : test = 0
          · rw [if_pos hzero, if_pos ((hcalls.test _ _ hrelated).1 hzero)]
            have hinner := helse.erased hcalls hcontext (hkept.mono
              fun action hmem => List.mem_cons_of_mem _ (List.mem_append_right _ hmem))
              hentered limit state
            exact (hinner.inFrame helse.isKeptIn).erased
          · rw [if_neg hzero, if_neg (mt (hcalls.test _ _ hrelated).2 hzero)]
            have hinner := hthen.erased hcalls hcontext (hkept.mono
              fun action hmem => List.mem_cons_of_mem _ (List.mem_append_left _ hmem))
              hentered limit state
            exact (hinner.inFrame hthen.isKeptIn).erased
  | loop condition body =>
      cases htyped with
      | loop hcondition hbody =>
          apply ErasedWithin.erased
          refine erased_loop hcondition hbody.isKeptIn hcalls hcontext ?_ state herases
          intro scopes values state hinner
          have hbodyKept := hkept.mono (List.subset_cons_self _ _)
          exact hbody.erased hcalls hcontext hbodyKept hinner limit state
  | expression value =>
      cases htyped with
      | expression hvalue =>
          refine (matches_eval hvalue hcalls hcontext herases state).bind ?_
          intro _ _ state _
          exact .done ⟨herases, grown_of_domains_eq rfl⟩

theorem AllWellTyped.erased {context after : Context} {statements : List Stmt}
    (htyped : AllWellTyped context statements after)
    (hcalls : Corresponds related invariant left right) (hcontext : invariant context)
    (hkept : KeptBy invariant (actionsAll statements)) {scopes : Scopes Int32}
    {values : String → Int32} (herases : Erases related context scopes values) (limit : Nat)
    (state : σ) :
    Erased related context after scopes (execAll .nested left limit statements scopes state)
      (execAll .flat right limit statements values state) := by
  cases statements with
  | nil =>
      cases htyped
      exact .done ⟨herases, grown_of_domains_eq rfl⟩
  | cons first rest =>
      cases htyped with
      | cons hfirst hrest =>
          have hfirstKept := hkept.mono (List.subset_append_left _ _)
          have hbetween := (hfirst.typedUnder hcontext hfirstKept).1
          refine (hfirst.erased hcalls hcontext hfirstKept herases limit state).bind ?_
          rintro middle values state ⟨hmiddle, hgrown⟩
          have hlater := hrest.erased hcalls hbetween
            (hkept.mono (List.subset_append_right _ _)) hmiddle limit state
          refine hlater.mono ?_
          rintro last values ⟨hlast, hgrown'⟩
          exact ⟨hlast, hgrown.trans hgrown' hfirst.isKeptIn⟩

end

/-! ## Programs that the checker accepts -/

/-- Every visible name has the same value in both. -/
def SameVisible (visible : Scopes Ty) (scopes : Scopes Int32) (values : String → Int32) : Prop :=
  ∀ name, visible.isBound name → scopes.lookup? name = some (values name)

theorem SameVisible.of_erases {visible : Scopes Ty} {scopes : Scopes Int32}
    {values : String → Int32} (herases : Erases .equality visible.lookup? scopes values) :
    SameVisible visible scopes values := by
  intro name hname
  obtain ⟨type, htype⟩ := Option.isSome_iff_exists.1 hname
  obtain ⟨value, hvalue, hequal⟩ := herases name type htype
  calc
    scopes.lookup? name = some value := hvalue
    _ = some (values name) := congrArg some hequal

/-- At the start nothing but the built-in names is visible, and these are zero. -/
theorem erases_equality_scopes {builtins : Builtins} {values : String → Int32}
    (hzero : ∀ name, (builtins.signature? name).isSome → values name = 0) :
    Erases .equality builtins.signature? builtins.scopes values := by
  intro name type hname
  refine ⟨0, ?_, (hzero name (Option.isSome_of_eq_some hname)).symm⟩
  rw [builtins.lookup?_scopes, hname]
  rfl

theorem matches_flat {builtins : Builtins} {program : Stmt}
    (hcheck : program.checkProgram builtins = .ok ()) (calls : Calls σ ε)
    {values : String → Int32}
    (hzero : ∀ name, (builtins.signature? name).isSome → values name = 0) (limit : Nat)
    (state : σ) :
    (program.exec .nested calls limit builtins.scopes state).Matches
      (SameVisible (program.check (.ofRoot builtins.signatures)).2)
      (program.exec .flat calls limit values state) := by
  have htyped := wellTyped_of_check (Prod.ext hcheck rfl)
  rw [lookup?_ofRoot_signatures] at htyped
  have hkept : KeptBy (fun _ => True) program.actions := by
    intro context name type value hmem hcontext hname
    trivial
  have herased := htyped.erased (corresponds_equality _ calls) trivial hkept
    (erases_equality_scopes hzero) limit state
  exact herased.mono fun last values hlast => SameVisible.of_erases hlast.1

/-- Scopes can be erased from every program that the checker accepts.  Whatever calls do, the
program makes the same calls with the same results and ends in the same way, whether its variables
live in nested frames, the built-in names in the outermost one, or all in one store.  Calls that are
recorded up to any number of them show their order also where the program never ends. -/
theorem exec_nested_matches_flat {builtins : Builtins} {program : Stmt}
    (hcheck : program.checkProgram builtins = .ok ()) (calls : Calls σ ε)
    {values : String → Int32}
    (hzero : ∀ name, (builtins.signature? name).isSome → values name = 0) (state : σ) :
    (∀ limit, (program.exec .nested calls limit builtins.scopes state).Matches
        (SameVisible (program.check (.ofRoot builtins.signatures)).2)
        (program.exec .flat calls limit values state)) ∧
      ∀ count limit,
        (program.exec .nested (calls.recorded count) limit builtins.scopes (state, [])).Matches
          (SameVisible (program.check (.ofRoot builtins.signatures)).2)
          (program.exec .flat (calls.recorded count) limit values (state, [])) := by
  constructor
  · intro limit
    exact matches_flat hcheck calls hzero limit state
  · intro count limit
    exact matches_flat hcheck (calls.recorded count) hzero limit (state, [])

/-- A loop that declares `step` anew in each of its two rounds, before a sibling that declares it
once more.  The rounds use up the count that the calls go by. -/
theorem exec_nested_matches_flat_redeclared :
    let step := declaration "step" .int (.call "next" [])
    let program := block [loop (.call "more" []) (block [step]), step]
    let builtins := (Builtins.empty.insert "more" (.function [] .bool) (by decide)).insert "next"
      (.function [] .int) (by decide)
    let calls : Calls Nat Unit := fun function _ count =>
      if function = "more" then (.ok (flag (0 < count)), count)
      else (.ok (Int32.ofNat count), count - 1)
    program.checkProgram builtins = .ok () ∧
      (program.exec .nested calls 3 builtins.scopes 2).Matches
        (SameVisible (program.check (.ofRoot builtins.signatures)).2)
        (program.exec .flat calls 3 (fun _ => 0) 2) ∧
      ∃ values, program.exec .flat calls 3 (fun _ => 0) 2 = .done values 0 := by
  intro step program builtins calls
  have hcheck : program.checkProgram builtins = .ok () := by rfl
  have hmatches := exec_nested_matches_flat hcheck calls (fun _ _ => rfl) 2
  exact ⟨hcheck, hmatches.1 3, _, rfl⟩

end Stmt

end WhileCompiler
