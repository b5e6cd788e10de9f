import WhileCompiler.Proofs.Ir.Renaming

/-!
# The listing of renamed code

No name of a variable is left in a listing.  A variable is known by its place in the frame, which is
that of its first assignment, and a renaming that keeps the variables apart changes no place.
-/

namespace WhileCompiler

open Ir

namespace Asm

/-- The fault about renamed variables. -/
def EmissionError.rename (f : String → String) : EmissionError → EmissionError
  | neverAssigned name => neverAssigned (f name)
  | wrongCount function expected given => wrongCount function expected given

/-! ## Places -/

/-- Renamed names repeat where the names do. -/
theorem eraseDups_map {g : String → String} :
    (names : List String) → Set.InjOn g {name | name ∈ names} →
      (names.map g).eraseDups = names.eraseDups.map g
  | [], _ => rfl
  | first :: rest, hinjective => by
      have hothers : (rest.map g).filter (fun name => !name == g first) =
          (rest.filter fun name => !name == first).map g := by
        rw [List.filter_map]
        congr 1
        apply List.filter_congr
        intro name hname
        have hsame : g name = g first ↔ name = first :=
          ⟨fun heq => hinjective (List.mem_cons_of_mem _ hname) List.mem_cons_self heq, congrArg g⟩
        rw [Function.comp, Bool.eq_iff_iff]
        simp [hsame]
      have hrest : Set.InjOn g {name | name ∈ rest.filter fun name => !name == first} :=
        hinjective.mono fun name hname => List.mem_cons_of_mem _ (List.mem_filter.1 hname).1
      rw [List.map_cons, List.eraseDups_cons, List.eraseDups_cons, hothers,
        eraseDups_map _ hrest, List.map_cons]
  termination_by names => names.length
  decreasing_by exact Nat.lt_succ_of_le (List.length_filter_le _ _)

theorem idxOf?_map {g : String → String} {scope : Set String} (hinjective : Set.InjOn g scope)
    {name : String} (hname : name ∈ scope) {names : List String}
    (hnames : ∀ other ∈ names, other ∈ scope) :
    (names.map g).idxOf? (g name) = names.idxOf? name := by
  induction names with
  | nil => rfl
  | cons first rest ih =>
      rw [List.forall_mem_cons] at hnames
      have hsame : g first = g name ↔ first = name :=
        ⟨fun heq => hinjective hnames.1 hname heq, congrArg g⟩
      rw [List.map_cons, List.idxOf?_cons, List.idxOf?_cons, ih hnames.2]
      simp only [beq_iff_eq, hsame]

namespace Frame

def rename (g : String → String) (frame : Frame) : Frame :=
  ⟨frame.names.map g⟩

theorem size_rename (g : String → String) (frame : Frame) : (frame.rename g).size = frame.size := by
  rw [size, size, rename, List.length_map]

/-- A renaming `g` that keeps the variables in the frame and around it apart, and does what `f` does
to those without a place. -/
structure IsRenamed (f g : String → String) (scope : Set String) (frame : Frame) : Prop where
  injective : Set.InjOn g scope
  names : ∀ name ∈ frame.names, name ∈ scope
  faults : ∀ name ∈ scope, name ∉ frame.names → g name = f name

end Frame

variable {f g : String → String} {scope : Set String} {frame : Frame} {builtins : Builtins}

/-! ## Commands -/

section

variable (hframe : frame.IsRenamed f g scope)

include hframe

theorem slot_rename {name : String} (hname : name ∈ scope) :
    (frame.rename g).slot (g name) = (frame.slot name).mapError (EmissionError.rename f) := by
  rw [Frame.slot, Frame.slot, Frame.offset?, Frame.offset?, Frame.rename,
    idxOf?_map hframe.injective hname hframe.names]
  cases hindex : frame.names.idxOf? name with
  | none =>
      have hfault := hframe.faults name hname (List.idxOf?_eq_none_iff.1 hindex)
      exact congrArg (fun name => Except.error (EmissionError.neverAssigned name)) hfault
  | some index => rfl

theorem operand_rename {value : Value} (hvalue : ∀ name ∈ value.reads, name ∈ scope) :
    (frame.rename g).operand (value.rename g) =
      (frame.operand value).mapError (EmissionError.rename f) := by
  rcases value with value | name
  · rfl
  · exact slot_rename hframe (hvalue name (List.mem_singleton_self name))

omit hframe in
theorem val_operands_cons (frame : Frame) (first : Value) (rest : List Value) :
    Subtype.val <$> operands frame (first :: rest) =
      frame.operand first >>= fun operand =>
        (operand :: ·) <$> (Subtype.val <$> operands frame rest) := by
  rw [operands]
  cases frame.operand first with
  | error error => rfl
  | ok operand =>
      cases operands frame rest with
      | error error => rfl
      | ok others => rfl

theorem operands_rename {values : List Value}
    (hvalues : ∀ name ∈ values.flatMap Value.reads, name ∈ scope) :
    Subtype.val <$> operands (frame.rename g) (values.map (Value.rename g)) =
      (Subtype.val <$> operands frame values).mapError (EmissionError.rename f) := by
  induction values with
  | nil => rfl
  | cons first rest ih =>
      rw [List.flatMap_cons, List.forall_mem_append] at hvalues
      rw [List.map_cons, val_operands_cons, val_operands_cons, mapError_bind,
        operand_rename hframe hvalues.1]
      congr 1
      funext operand
      rw [ih hvalues.2, mapError_map (EmissionError.rename f) (operand :: ·)]

theorem store_rename {destination : String} (hdestination : destination ∈ scope) :
    store (frame.rename g) (g destination) =
      (store frame destination).mapError (EmissionError.rename f) := by
  rw [store, store, mapError_bind, slot_rename hframe hdestination]
  rfl

theorem copied_rename {destination : String} {value : Value} (hdestination : destination ∈ scope)
    (hvalue : ∀ name ∈ value.reads, name ∈ scope) :
    copied (frame.rename g) (g destination) (value.rename g) =
      (copied frame destination value).mapError (EmissionError.rename f) := by
  rw [copied, copied, mapError_bind, operand_rename hframe hvalue]
  congr 1
  funext operand
  rw [mapError_bind, store_rename hframe hdestination]
  rfl

theorem branch_rename {condition : Value} (hcondition : ∀ name ∈ condition.reads, name ∈ scope)
    (jump : Instruction Operand) :
    branch (frame.rename g) (condition.rename g) jump =
      (branch frame condition jump).mapError (EmissionError.rename f) := by
  rw [branch, branch, mapError_bind, operand_rename hframe hcondition]
  rfl

omit hframe in
theorem pushes_eq (frame : Frame) (arguments : List Value) :
    pushes frame arguments =
      List.map .push <$> (Subtype.val <$> operands frame arguments.reverse) := by
  rw [pushes]
  cases operands frame arguments.reverse with
  | error error => rfl
  | ok found => rfl

theorem pushes_rename {arguments : List Value}
    (harguments : ∀ name ∈ arguments.flatMap Value.reads, name ∈ scope) :
    pushes (frame.rename g) (arguments.map (Value.rename g)) =
      (pushes frame arguments).mapError (EmissionError.rename f) := by
  have hreverse : ∀ name ∈ arguments.reverse.flatMap Value.reads, name ∈ scope := by
    simpa only [List.mem_flatMap, List.mem_reverse] using harguments
  rw [pushes_eq, pushes_eq, ← List.map_reverse, operands_rename hframe hreverse]
  exact (mapError_map _ _ _).symm

theorem called_rename {destination : String} (function : String) {arguments : List Value}
    (hdestination : destination ∈ scope)
    (harguments : ∀ name ∈ arguments.flatMap Value.reads, name ∈ scope) :
    called (frame.rename g) (g destination) function (arguments.map (Value.rename g)) =
      (called frame destination function arguments).mapError (EmissionError.rename f) := by
  rw [called, called, mapError_bind, pushes_rename hframe harguments]
  congr 1
  funext pushed
  rw [mapError_bind, store_rename hframe hdestination, List.length_map]
  rfl

theorem inlined_rename {recipe : Recipe} {destination : String} (function : String)
    {arguments : List Value} (hdestination : destination ∈ scope)
    (harguments : ∀ name ∈ arguments.flatMap Value.reads, name ∈ scope) :
    inlined (frame.rename g) recipe (g destination) function (arguments.map (Value.rename g)) =
      (inlined frame recipe destination function arguments).mapError (EmissionError.rename f) := by
  have hlength : (arguments.map (Value.rename g)).length = arguments.length := List.length_map _
  by_cases hcount : arguments.length = recipe.arity
  · have hoperands := operands_rename hframe harguments
    rw [inlined, inlined, dif_pos hcount, dif_pos (hlength.trans hcount)]
    cases hfound : operands frame arguments with
    | error error =>
        rw [hfound] at hoperands
        rw [map_eq_error.1 hoperands]
        rfl
    | ok found =>
        rw [hfound] at hoperands
        obtain ⟨others, hothers, hsame⟩ := map_eq_ok.1 hoperands
        rw [hothers, mapError_bind]
        change (store _ _ >>= fun stored => pure (recipe.instructions others.val _ ++ stored)) =
          (store _ _ >>= fun stored => pure (recipe.instructions found.val _ ++ stored)).mapError _
        rw [mapError_bind, store_rename hframe hdestination]
        simp only [hsame]
        rfl
  · rw [inlined, inlined, dif_neg hcount, dif_neg (hlength ▸ hcount), hlength]
    rfl

/-- Emission sees names only through their places in the frame. -/
theorem emit_rename {command : Command} (hassigned : ∀ name ∈ command.assigned?, name ∈ scope)
    (hreads : ∀ name ∈ command.reads, name ∈ scope) :
    emit builtins (frame.rename g) (command.rename g) =
      (emit builtins frame command).mapError (EmissionError.rename f) := by
  cases command with
  | copy destination value =>
      rw [Command.rename, emit, emit, mapError_map,
        copied_rename hframe (hassigned destination rfl) hreads]
  | call destination function arguments =>
      rw [Command.rename, emit, emit, mapError_map]
      congr 1
      cases builtins.recipe? function with
      | some recipe => exact inlined_rename hframe function (hassigned destination rfl) hreads
      | none => exact called_rename hframe function (hassigned destination rfl) hreads
  | label name => rfl
  | jump target => rfl
  | jumpIf target condition =>
      rw [Command.rename, emit, emit, mapError_map, branch_rename hframe hreads]
  | jumpUnless target condition =>
      rw [Command.rename, emit, emit, mapError_map, branch_rename hframe hreads]

theorem emitAll_rename {code : List Command}
    (hassigned : ∀ name ∈ assigned code, name ∈ scope)
    (hreads : ∀ command ∈ code, ∀ name ∈ command.reads, name ∈ scope) :
    emitAll builtins (frame.rename g) (code.map (Command.rename g)) =
      (emitAll builtins frame code).mapError (EmissionError.rename f) := by
  induction code with
  | nil => rfl
  | cons first rest ih =>
      rw [List.forall_mem_cons] at hreads
      have hfirst : ∀ name ∈ first.assigned?, name ∈ scope := fun name hname =>
        hassigned name (List.mem_filterMap.2 ⟨first, List.mem_cons_self, hname⟩)
      have hrest : ∀ name ∈ assigned rest, name ∈ scope := fun name hname =>
        hassigned name (mem_assigned_of_subset (List.subset_cons_self first rest) hname)
      rw [List.map_cons, emitAll, emitAll, mapError_bind, emit_rename hframe hfirst hreads.1]
      congr 1
      funext lines
      rw [mapError_bind, ih hrest hreads.2]
      rfl

end

/-! ## Programs -/

theorem assigned?_rename (g : String → String) (command : Command) :
    (command.rename g).assigned? = command.assigned?.map g := by
  cases command <;> rfl

theorem external?_rename (g : String → String) (builtins : Builtins) (command : Command) :
    external? builtins (command.rename g) = external? builtins command := by
  cases command <;> rfl

theorem assigned_rename (g : String → String) (code : List Command) :
    assigned (code.map (Command.rename g)) = (assigned code).map g := by
  rw [assigned, assigned, List.filterMap_map, List.map_filterMap]
  exact List.filterMap_congr fun command _ => assigned?_rename g command

theorem externals_rename (g : String → String) (builtins : Builtins) (code : List Command) :
    (code.map (Command.rename g)).filterMap (external? builtins) =
      code.filterMap (external? builtins) := by
  rw [List.filterMap_map]
  exact List.filterMap_congr fun command _ => external?_rename g builtins command

theorem ofCommands_rename {code : List Command} (hinjective : Set.InjOn g scope)
    (hassigned : ∀ name ∈ assigned code, name ∈ scope) :
    Frame.ofCommands (code.map (Command.rename g)) = (Frame.ofCommands code).rename g := by
  have hnames := eraseDups_map (assigned code) (hinjective.mono hassigned)
  rw [← assigned_rename] at hnames
  exact congrArg Frame.mk hnames

/-- The listing of renamed code is that of the code, unless there is a fault, which is then about
the renamed variable. -/
theorem listing_rename {code : List Command} (hinjective : Set.InjOn g scope)
    (hassigned : ∀ name ∈ assigned code, name ∈ scope)
    (hreads : ∀ command ∈ code, ∀ name ∈ command.reads, name ∈ scope)
    (hfaults : ∀ name ∈ scope, name ∉ assigned code → g name = f name) :
    listing builtins (code.map (Command.rename g)) =
      (listing builtins code).mapError (EmissionError.rename f) := by
  have hframe : (Frame.ofCommands code).IsRenamed f g scope :=
    { injective := hinjective
      names := fun name hname => hassigned name (mem_names_ofCommands.1 hname)
      faults := fun name hname hplace =>
        hfaults name hname fun hmem => hplace (mem_names_ofCommands.2 hmem) }
  rw [listing, listing, Routine.ofCommands, Routine.ofCommands, mapError_bind, mapError_bind,
    ofCommands_rename hinjective hassigned, emitAll_rename hframe hassigned hreads,
    externals_rename]
  simp only [prologue, Frame.size_rename]
  rfl

end Asm

end WhileCompiler
