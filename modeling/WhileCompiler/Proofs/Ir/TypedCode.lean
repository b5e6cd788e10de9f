import WhileCompiler.Proofs.Asm.EmissionFaults
import WhileCompiler.Proofs.Ir.CommandOrigins
import WhileCompiler.Proofs.Typing.BuiltinNames
import WhileCompiler.Proofs.Typing.Contexts

/-!
# The code of well-typed programs

Lowered code assigns the targets of its program and temporaries.  If the program is well typed, the
calls in it fit the functions, and it reads only what it assigns and what it copies from the names
of functions.
-/

namespace WhileCompiler

open Asm Ir

/-! ## What is assigned -/

namespace Stmt

/-- A command that assigns a name stores a value that the program gives to it, or the result of a
call. -/
theorem mem_targets_or_call {program : Stmt} {command : Command} (hmem : command ∈ program.toIr)
    {name : String} (hname : name ∈ command.assigned?) :
    name ∈ program.targets ∨
      ∃ function arguments, command = .call name function arguments ∧ IsTemporary name := by
  cases program.origin_lower .initial command hmem with
  | computing action haction hpart hcommand =>
      obtain ⟨temporary, function, arguments, rfl, htemporary, -⟩ :=
        (action.value.computes_lower _).computation command hcommand
      obtain rfl := Option.some.inj hname
      exact .inr ⟨function, arguments, rfl, htemporary⟩
  | storing action haction htarget hpart =>
      obtain rfl := Option.some.inj hname
      exact .inl (List.mem_filterMap.2 ⟨action, haction, htarget⟩)
  | testing => cases hname
  | label => cases hname
  | jump => cases hname

theorem mem_targets_or_isTemporary {program : Stmt} {name : String}
    (hname : name ∈ assigned program.toIr) : name ∈ program.targets ∨ IsTemporary name := by
  obtain ⟨command, hmem, hassigned⟩ := List.mem_filterMap.1 hname
  rcases mem_targets_or_call hmem hassigned with htarget | ⟨_, _, -, htemporary⟩
  · exact .inl htarget
  · exact .inr htemporary

theorem mem_assigned_of_mem_targets {program : Stmt} {name : String}
    (hname : name ∈ program.targets) : name ∈ assigned program.toIr := by
  obtain ⟨action, haction, htarget⟩ := List.mem_filterMap.1 hname
  obtain ⟨names, hcopy⟩ := program.copy_mem_lower .initial action haction name htarget
  exact List.mem_filterMap.2 ⟨_, hcopy, rfl⟩

end Stmt

/-! ## What is read -/

/-- Where an expression is typed, names of values are known and names of functions are built in. -/
structure Context.Covers (builtins : Builtins) (known : String → Prop) (context : Context) :
    Prop where
  values : ∀ name type, context name = some type → type.IsValue → known name
  functions : ∀ name type, context name = some type → ¬ type.IsValue →
    builtins.signature? name = some type

/-- The code reads only what is known and what it assigns itself. -/
def ReadsKnown (known : String → Prop) (code : List Command) : Prop :=
  ∀ command ∈ code, ∀ name ∈ command.reads, known name ∨ name ∈ assigned code

/-- A value that can be read once the code has run. -/
def IsKnown (known : String → Prop) (code : List Command) (value : Value) : Prop :=
  ∀ name ∈ value.reads, known name ∨ name ∈ assigned code

section

variable {known : String → Prop} {code left right : List Command}

theorem mem_assigned_of_subset {part whole : List Command} (hsubset : part ⊆ whole) {name : String}
    (hname : name ∈ assigned part) : name ∈ assigned whole := by
  obtain ⟨command, hmem, hassigned⟩ := List.mem_filterMap.1 hname
  exact List.mem_filterMap.2 ⟨command, hsubset hmem, hassigned⟩

theorem IsKnown.mono {value : Value} (hvalue : IsKnown known left value) (hsubset : left ⊆ right) :
    IsKnown known right value :=
  fun name hname => (hvalue name hname).imp_right (mem_assigned_of_subset hsubset)

theorem readsKnown_nil : ReadsKnown known [] :=
  fun _ hmem => absurd hmem List.not_mem_nil

theorem ReadsKnown.append (hleft : ReadsKnown known left) (hright : ReadsKnown known right) :
    ReadsKnown known (left ++ right) := by
  intro command hmem name hname
  rcases List.mem_append.1 hmem with hmem | hmem
  · exact (hleft command hmem name hname).imp_right
      (mem_assigned_of_subset (List.subset_append_left _ _))
  · exact (hright command hmem name hname).imp_right
      (mem_assigned_of_subset (List.subset_append_right _ _))

/-- Code that computes values which can be read behind it. -/
structure Delivers (known : String → Prop) (lowered : Lowered (List Value)) : Prop where
  reads : ReadsKnown known lowered.code
  results : ∀ value ∈ lowered.result, IsKnown known lowered.code value

theorem delivers_nil (names : Names) : Delivers known (Expr.lowerAll [] names) :=
  ⟨readsKnown_nil, fun _ hmem => absurd hmem List.not_mem_nil⟩

theorem Delivers.cons {first : Expr} {rest : List Expr} {names : Names}
    (hfirst : ReadsKnown known (first.lower names).code)
    (hresult : IsKnown known (first.lower names).code (first.lower names).result)
    (hrest : Delivers known (Expr.lowerAll rest (first.lower names).names)) :
    Delivers known (Expr.lowerAll (first :: rest) names) := by
  refine ⟨hfirst.append hrest.reads, fun value hvalue => ?_⟩
  rcases List.mem_cons.1 hvalue with rfl | hvalue
  · exact hresult.mono (List.subset_append_left _ _)
  · exact (hrest.results value hvalue).mono (List.subset_append_right _ _)

/-- The result of a call is known once the call has been made. -/
theorem Delivers.call {arguments : Lowered (List Value)} (harguments : Delivers known arguments)
    (function : String) :
    ReadsKnown known (arguments.call function).code ∧
      IsKnown known (arguments.call function).code (arguments.call function).result := by
  have hsubset : arguments.code ⊆ (arguments.call function).code := List.subset_append_left _ _
  refine ⟨?_, ?_⟩
  · intro command hmem name hname
    rcases List.mem_append.1 hmem with hmem | hmem
    · exact (harguments.reads command hmem name hname).imp_right (mem_assigned_of_subset hsubset)
    · obtain rfl := List.mem_singleton.1 hmem
      obtain ⟨value, hvalue, hread⟩ := List.mem_flatMap.1 hname
      exact (harguments.results value hvalue).mono hsubset name hread
  · intro name hname
    obtain rfl := List.mem_singleton.1 hname
    exact .inr (List.mem_filterMap.2 ⟨_, List.mem_append_right _ (List.mem_singleton_self _), rfl⟩)

end

namespace Expr

variable {builtins : Builtins} {known : String → Prop} {context : Context}

theorem isFirstOrder_of_function (hbuiltins : builtins.IsFirstOrder)
    (hcovers : context.Covers builtins known) {function : String} {parameters : List Ty}
    {result : Ty} (hfunction : context function = some (.function parameters result)) :
    (∀ parameter ∈ parameters, parameter.IsValue) ∧ result.IsValue :=
  hbuiltins function _ (hcovers.functions function _ hfunction id)

mutual

theorem readsKnown_lower (hbuiltins : builtins.IsFirstOrder)
    (hcovers : context.Covers builtins known) {expression : Expr} {type : Ty}
    (htyped : expression.HasType context type) (names : Names) :
    ReadsKnown known (expression.lower names).code ∧
      (type.IsValue →
        IsKnown known (expression.lower names).code (expression.lower names).result) := by
  cases expression with
  | int value => exact ⟨readsKnown_nil, fun _ _ hname => absurd hname List.not_mem_nil⟩
  | bool value => exact ⟨readsKnown_nil, fun _ _ hname => absurd hname List.not_mem_nil⟩
  | var name =>
      refine ⟨readsKnown_nil, fun hvalue other hother => ?_⟩
      obtain rfl := List.mem_singleton.1 hother
      cases htyped with
      | var hname => exact .inl (hcovers.values _ _ hname hvalue)
  | unary operator operand =>
      cases htyped with
      | unary hoperand hfunction =>
          have hparameters := (isFirstOrder_of_function hbuiltins hcovers hfunction).1
          have hoperand := readsKnown_lower hbuiltins hcovers hoperand names
          have hdelivers := Delivers.cons hoperand.1 (hoperand.2 (hparameters _ (by simp)))
            (delivers_nil _)
          rw [lower_unary]
          exact ⟨(hdelivers.call _).1, fun _ => (hdelivers.call _).2⟩
  | binary operator left right =>
      cases htyped with
      | binary hleft hright hfunction =>
          have hparameters := (isFirstOrder_of_function hbuiltins hcovers hfunction).1
          have hleft := readsKnown_lower hbuiltins hcovers hleft names
          have hright := readsKnown_lower hbuiltins hcovers hright (left.lower names).names
          have hdelivers := Delivers.cons hleft.1 (hleft.2 (hparameters _ (by simp)))
            (.cons hright.1 (hright.2 (hparameters _ (by simp))) (delivers_nil _))
          rw [lower_binary]
          exact ⟨(hdelivers.call _).1, fun _ => (hdelivers.call _).2⟩
  | call function arguments =>
      cases htyped with
      | call harguments hfunction =>
          have hparameters := (isFirstOrder_of_function hbuiltins hcovers hfunction).1
          have hdelivers := delivers_lowerAll hbuiltins hcovers harguments hparameters names
          exact ⟨(hdelivers.call _).1, fun _ => (hdelivers.call _).2⟩

theorem delivers_lowerAll (hbuiltins : builtins.IsFirstOrder)
    (hcovers : context.Covers builtins known) {expressions : List Expr} {types : List Ty}
    (htyped : HaveTypes context expressions types) (htypes : ∀ type ∈ types, type.IsValue)
    (names : Names) : Delivers known (lowerAll expressions names) := by
  cases expressions with
  | nil => exact delivers_nil names
  | cons first rest =>
      cases htyped with
      | cons hfirst hrest =>
          rw [List.forall_mem_cons] at htypes
          have hfirst := readsKnown_lower hbuiltins hcovers hfirst names
          have hrest := delivers_lowerAll hbuiltins hcovers hrest htypes.2 (first.lower names).names
          exact .cons hfirst.1 (hfirst.2 htypes.1) hrest

end

/-- Only names are expressions of function types. -/
theorem eq_var_of_not_isValue (hbuiltins : builtins.IsFirstOrder)
    (hcovers : context.Covers builtins known) {expression : Expr} {type : Ty}
    (htyped : expression.HasType context type) (htype : ¬ type.IsValue) :
    ∃ name, expression = .var name ∧ context name = some type := by
  cases htyped with
  | int => exact absurd trivial htype
  | bool => exact absurd trivial htype
  | var hname => exact ⟨_, rfl, hname⟩
  | unary hoperand hfunction =>
      exact absurd (isFirstOrder_of_function hbuiltins hcovers hfunction).2 htype
  | binary hleft hright hfunction =>
      exact absurd (isFirstOrder_of_function hbuiltins hcovers hfunction).2 htype
  | call harguments hfunction =>
      exact absurd (isFirstOrder_of_function hbuiltins hcovers hfunction).2 htype

/-! ## What is called -/

/-- Calls in code are to functions of the context, with as many arguments as they take. -/
def CallsFit (context : Context) (code : List Command) : Prop :=
  ∀ destination function arguments, .call destination function arguments ∈ code →
    ∃ parameters result, context function = some (.function parameters result) ∧
      arguments.length = parameters.length

theorem CallsFit.append {left right : List Command} (hleft : CallsFit context left)
    (hright : CallsFit context right) : CallsFit context (left ++ right) := by
  intro destination function arguments hmem
  rcases List.mem_append.1 hmem with hmem | hmem
  · exact hleft destination function arguments hmem
  · exact hright destination function arguments hmem

theorem callsFit_nil : CallsFit context [] :=
  fun _ _ _ hmem => absurd hmem List.not_mem_nil

theorem CallsFit.call {arguments : Lowered (List Value)} {function : String} {parameters : List Ty}
    {result : Ty} (harguments : CallsFit context arguments.code)
    (hfunction : context function = some (.function parameters result))
    (hcount : arguments.result.length = parameters.length) :
    CallsFit context (arguments.call function).code := by
  refine harguments.append fun destination other given hmem => ?_
  obtain ⟨rfl, rfl, rfl⟩ := Command.call.inj (List.mem_singleton.1 hmem)
  exact ⟨parameters, result, hfunction, hcount⟩

theorem length_result_lowerAll (expressions : List Expr) (names : Names) :
    (lowerAll expressions names).result.length = expressions.length := by
  induction expressions generalizing names with
  | nil => rfl
  | cons first rest ih => exact congrArg (· + 1) (ih _)

theorem HaveTypes.length_eq {expressions : List Expr} {types : List Ty}
    (htyped : HaveTypes context expressions types) : expressions.length = types.length := by
  induction expressions generalizing types with
  | nil => cases htyped; rfl
  | cons first rest ih =>
      cases htyped with
      | cons hfirst hrest => exact congrArg (· + 1) (ih hrest)

mutual

/-- Calls in the code of a typed expression have as many arguments as their signatures ask for. -/
theorem callsFit_lower {expression : Expr} {type : Ty} (htyped : expression.HasType context type)
    (names : Names) : CallsFit context (expression.lower names).code := by
  cases expression with
  | int value => exact callsFit_nil
  | bool value => exact callsFit_nil
  | var name => exact callsFit_nil
  | unary operator operand =>
      cases htyped with
      | unary hoperand hfunction => exact (callsFit_lower hoperand names).call hfunction rfl
  | binary operator left right =>
      cases htyped with
      | binary hleft hright hfunction =>
          have hoperands := (callsFit_lower hleft names).append
            (callsFit_lower hright (left.lower names).names)
          exact hoperands.call hfunction rfl
  | call function arguments =>
      cases htyped with
      | call harguments hfunction =>
          refine (callsFit_lowerAll harguments names).call hfunction ?_
          rw [length_result_lowerAll, harguments.length_eq]

theorem callsFit_lowerAll {expressions : List Expr} {types : List Ty}
    (htyped : HaveTypes context expressions types) (names : Names) :
    CallsFit context (lowerAll expressions names).code := by
  cases expressions with
  | nil => exact callsFit_nil
  | cons first rest =>
      cases htyped with
      | cons hfirst hrest =>
          exact (callsFit_lower hfirst names).append (callsFit_lowerAll hrest _)

end

end Expr

namespace Stmt

variable {builtins : Builtins} {program : Stmt} {after : Context}

/-- Every call in a well-typed program fits in some context that its declarations lead to. -/
theorem exists_of_call {invariant : Context → Prop}
    (htyped : TypedUnder invariant program.actions) {destination function : String}
    {arguments : List Value} (hcall : .call destination function arguments ∈ program.toIr) :
    ∃ context parameters result, invariant context ∧
      context function = some (.function parameters result) ∧
        arguments.length = parameters.length := by
  cases program.origin_lower .initial _ hcall with
  | computing action haction hpart hcommand =>
      obtain ⟨context, hcontext, hwellTyped⟩ := htyped action haction
      obtain ⟨type, hvalue⟩ := hwellTyped.hasType
      obtain ⟨parameters, result, hfunction, hcount⟩ :=
        Expr.callsFit_lower hvalue _ destination function arguments hcommand
      exact ⟨context, parameters, result, hcontext, hfunction, hcount⟩

/-- The operators in a well-typed program are given as many operands as they take. -/
theorem hasCount_toIr (htyped : WellTyped builtins.signature? program after) :
    ∀ command ∈ program.toIr, HasCount builtins command := by
  rintro command hmem destination function arguments recipe rfl hrecipe
  have hactions := (htyped.typedUnder (fun _ _ h => h) (keptBy_isKeptIn _ _)).2
  obtain ⟨context, parameters, result, hcontext, hfunction, hcount⟩ := exists_of_call hactions hmem
  rw [Builtins.recipe?, Option.map_eq_some_iff] at hrecipe
  obtain ⟨operator, hoperator, rfl⟩ := hrecipe
  obtain ⟨expected, outcome, htype, harity⟩ := operator.type_eq_function
  have hsignature := hcontext function _ (Builtins.signature?_of_operator? hoperator)
  rw [hfunction, htype] at hsignature
  rw [hcount, (Ty.function.inj (Option.some.inj hsignature)).1, harity]

/-- Programs declare variables of values only. -/
def DeclaresValues (program : Stmt) : Prop :=
  ∀ name type value, .declare name type value ∈ program.actions → type.IsValue

theorem keptBy_covers {known : String → Prop} (hdeclared : program.DeclaresValues)
    (hknown : ∀ name ∈ program.targets, known name) :
    KeptBy (Context.Covers builtins known) program.actions := by
  intro context name type value hmem hcovers hnone
  have htarget : name ∈ program.targets := List.mem_filterMap.2 ⟨_, hmem, rfl⟩
  refine ⟨fun other found hother hvalue => ?_, fun other found hother hfunction => ?_⟩
  · by_cases hname : other = name
    · exact hname ▸ hknown name htarget
    · rw [Context.extend_of_ne hname] at hother
      exact hcovers.values other found hother hvalue
  · by_cases hname : other = name
    · rw [hname, Context.extend, if_pos rfl] at hother
      exact absurd (Option.some.inj hother ▸ hdeclared name type value hmem) hfunction
    · rw [Context.extend_of_ne hname] at hother
      exact hcovers.functions other found hother hfunction

theorem covers_signature? (hbuiltins : builtins.IsFirstOrder) (known : String → Prop) :
    Context.Covers builtins known builtins.signature? :=
  ⟨fun name type hname hvalue => absurd hvalue (hbuiltins name type hname).not_isValue,
    fun _ _ hname _ => hname⟩

theorem typedUnder_covers (hbuiltins : builtins.IsFirstOrder)
    (htyped : WellTyped builtins.signature? program after) (hdeclared : program.DeclaresValues)
    {known : String → Prop} (hknown : ∀ name ∈ program.targets, known name) :
    TypedUnder (Context.Covers builtins known) program.actions :=
  (htyped.typedUnder (covers_signature? hbuiltins known) (keptBy_covers hdeclared hknown)).2

/-- A well-typed program reads its own variables, and built-in names where it copies them. -/
theorem readsKnown_toIr (hbuiltins : builtins.IsFirstOrder)
    (htyped : WellTyped builtins.signature? program after) (hdeclared : program.DeclaresValues)
    {known : String → Prop} (hknown : ∀ name ∈ program.targets, known name)
    (hcopies : ∀ target name, (target, name) ∈ program.copies →
      (builtins.signature? name).isSome → known name) :
    ReadsKnown known program.toIr := by
  have hactions := typedUnder_covers hbuiltins htyped hdeclared hknown
  have hresult {context : Context} (hcovers : context.Covers builtins known) {value : Expr}
      {type : Ty} (hvalue : value.HasType context type) (htype : type.IsValue) {names : Names}
      (hpart : (value.lower names).code ⊆ program.toIr) :
      IsKnown known program.toIr (value.lower names).result :=
    ((Expr.readsKnown_lower hbuiltins hcovers hvalue names).2 htype).mono hpart
  intro command hmem
  cases program.origin_lower .initial command hmem with
  | computing action haction hpart hcommand =>
      obtain ⟨context, hcovers, hwellTyped⟩ := hactions action haction
      obtain ⟨type, hvalue⟩ := hwellTyped.hasType
      intro name hname
      have hread := (Expr.readsKnown_lower hbuiltins hcovers hvalue _).1 command hcommand name hname
      exact hread.imp_right (mem_assigned_of_subset hpart)
  | storing action haction htarget hpart =>
      obtain ⟨context, hcovers, hwellTyped⟩ := hactions action haction
      cases action with
      | declare name type value =>
          exact hresult hcovers hwellTyped.2 (hdeclared name type value haction) hpart
      | assign name value =>
          obtain ⟨type, htype, hvalue⟩ := hwellTyped
          -- Functions cannot be computed, so that one is only ever copied from a built-in name.
          by_cases hfunction : type.IsValue
          · exact hresult hcovers hvalue hfunction hpart
          · obtain ⟨source, rfl, hsource⟩ :=
              Expr.eq_var_of_not_isValue hbuiltins hcovers hvalue hfunction
            have hbuiltin := hcovers.functions source type hsource hfunction
            have hcopy : (name, source) ∈ program.copies := mem_copies.2 haction
            intro other hother
            obtain rfl := List.mem_singleton.1 hother
            exact .inl (hcopies name _ hcopy (Option.isSome_of_eq_some hbuiltin))
      | test condition => cases htarget
      | evaluate value => cases htarget
  | testing haction hpart =>
      obtain ⟨context, hcovers, hwellTyped⟩ := hactions _ haction
      exact hresult hcovers hwellTyped trivial hpart
  | label => exact fun _ hname => absurd hname List.not_mem_nil
  | jump => exact fun _ hname => absurd hname List.not_mem_nil

end Stmt

end WhileCompiler
