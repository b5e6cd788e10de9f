import Mathlib
import WhileCompiler.Proofs.Ir.Temporaries
import WhileCompiler.Proofs.Ir.TypedCode
import WhileCompiler.Proofs.Machine.FrameWords

/-!
# The layout of a frame

The words of a frame stand in the order of the first assignments, one for each name that the code
assigns and no other, just as if they were reserved one after the other.  In the code of a program
each operator and each call has a word of its own beside those of the variables, so that the frame
is exactly as large as the program needs.
-/

namespace WhileCompiler

open Asm Ir

/-! ## The words of any code -/

namespace Asm

theorem nodup_eraseDups : (names : List String) → names.eraseDups.Nodup
  | [] => List.nodup_nil
  | first :: rest => by
      rw [List.eraseDups_cons]
      refine List.nodup_cons.2 ⟨?_, nodup_eraseDups _⟩
      simp [List.mem_eraseDups]
termination_by names => names.length
decreasing_by exact Nat.lt_succ_of_le (List.length_filter_le _ _)

theorem length_eraseDups (names : List String) :
    names.eraseDups.length = names.toFinset.card := by
  rw [← List.toFinset_card_of_nodup (nodup_eraseDups names)]
  congr 1
  ext name
  simp only [List.mem_toFinset, List.mem_eraseDups]

theorem idxOf?_append_cons {before : List String} {name : String} (hnew : name ∉ before)
    (after : List String) : (before ++ name :: after).idxOf? name = some before.length := by
  refine List.idxOf?_eq_some_iff.2 ⟨by simp, by simp, ?_⟩
  intro index hlt heq
  rw [List.getElem_append_left hlt] at heq
  exact hnew (heq ▸ List.getElem_mem hlt)

/-- A name that is new stands behind the different names before it. -/
theorem idxOf?_eraseDups {before : List String} {name : String} (hnew : name ∉ before)
    (after : List String) :
    (before ++ name :: after).eraseDups.idxOf? name = some before.toFinset.card := by
  have hkept : (name :: after).removeAll before = name :: after.removeAll before := by
    simp [List.removeAll, hnew]
  rw [List.eraseDups_append, hkept, List.eraseDups_cons, ← length_eraseDups]
  exact idxOf?_append_cons (fun hmem => hnew (List.mem_eraseDups.1 hmem)) _

/-- Code that assigns a name for the first time, once it has assigned a number of others. -/
def AssignsNew (code : List Command) (count : Nat) (name : String) : Prop :=
  ∃ before command after, code = before ++ command :: after ∧ command.assigned? = some name ∧
    name ∉ assigned before ∧ (assigned before).toFinset.card = count

variable {code : List Command} {count offset : Nat} {name : String}

theorem exists_assignsNew (hname : name ∈ assigned code) : ∃ count, AssignsNew code count name := by
  obtain ⟨earlier, later, hassigned, hnew⟩ := List.eq_append_cons_of_mem hname
  obtain ⟨front, rest, rfl, rfl, hrest⟩ := List.filterMap_eq_append_iff.1 hassigned
  obtain ⟨others, command, after, rfl, hothers, hcommand, -⟩ := List.filterMap_eq_cons_iff.1 hrest
  have hbefore : assigned (front ++ others) = assigned front := by
    rw [assigned, List.filterMap_append, List.filterMap_eq_nil_iff.2 hothers, List.append_nil]
    rfl
  exact ⟨_, front ++ others, command, after, by simp, hcommand, hbefore ▸ hnew, rfl⟩

theorem AssignsNew.offset? (hassigns : AssignsNew code count name) :
    (Frame.ofCommands code).offset? name = some (wordSize * (count + 1)) := by
  obtain ⟨before, command, after, rfl, hcommand, hnew, rfl⟩ := hassigns
  have hassigned : (before ++ command :: after).filterMap Command.assigned? =
      assigned before ++ name :: assigned after := by
    rw [List.filterMap_append, List.filterMap_cons, hcommand]
    rfl
  rw [Frame.offset?, Frame.ofCommands, hassigned, idxOf?_eraseDups hnew]
  rfl

theorem offset?_eq_some_iff :
    (Frame.ofCommands code).offset? name = some offset ↔
      ∃ count, AssignsNew code count name ∧ offset = wordSize * (count + 1) := by
  constructor
  · intro hoffset
    obtain ⟨index, hindex, -⟩ := Option.map_eq_some_iff.1 hoffset
    have hmem := List.isSome_idxOf?.1 (Option.isSome_of_eq_some hindex)
    obtain ⟨count, hassigns⟩ := exists_assignsNew (mem_names_ofCommands.1 hmem)
    exact ⟨count, hassigns, Option.some.inj (hoffset.symm.trans hassigns.offset?)⟩
  · rintro ⟨count, hassigns, rfl⟩
    exact hassigns.offset?

theorem size_ofCommands (code : List Command) :
    (Frame.ofCommands code).size = wordSize * (assigned code).toFinset.card := by
  rw [Frame.size, ← length_eraseDups]
  rfl

/-- Every word of the frame belongs to a name. -/
theorem exists_offset?_iff :
    (∃ name, (Frame.ofCommands code).offset? name = some offset) ↔
      ∃ count < (assigned code).toFinset.card, offset = wordSize * (count + 1) := by
  rw [← length_eraseDups]
  constructor
  · rintro ⟨name, hoffset⟩
    obtain ⟨index, hindex, rfl⟩ := Option.map_eq_some_iff.1 hoffset
    obtain ⟨hlt, -⟩ := List.idxOf?_eq_some_iff.1 hindex
    exact ⟨index, hlt, rfl⟩
  · rintro ⟨count, hlt, rfl⟩
    refine ⟨(assigned code).eraseDups[count], Option.map_eq_some_iff.2 ⟨count, ?_, rfl⟩⟩
    refine List.idxOf?_eq_some_iff.2 ⟨hlt, rfl, ?_⟩
    intro index hindex heq
    have hsame := (nodup_eraseDups (assigned code)).getElem_inj_iff.1 heq
    exact absurd hsame hindex.ne

/-! ## The words as they are reserved -/

theorem eraseDups_concat (names : List String) (name : String) :
    (names ++ [name]).eraseDups =
      if name ∈ names then names.eraseDups else names.eraseDups ++ [name] := by
  rw [List.eraseDups_append]
  by_cases hmem : name ∈ names
  · simp [List.removeAll, hmem]
  · simp [List.removeAll, hmem, List.eraseDups_cons]

/-- The words that have been reserved so far: how far below the frame each variable lies, and how
many bytes they take. -/
structure Reservation where
  offsets : Bindings Nat
  size : Nat

namespace Reservation

def empty : Reservation := ⟨.empty, 0⟩

/-- Reserves a word for a variable, unless it has one. -/
def reserve (reservation : Reservation) (name : String) : Reservation :=
  if (reservation.offsets.get? name).isSome then reservation
  else
    let size := reservation.size + wordSize
    ⟨reservation.offsets.insert name size, size⟩

/-- The words for the variables that code assigns, reserved one after the other. -/
def ofCommands (code : List Command) : Reservation :=
  (assigned code).foldl reserve empty

/-- The words are those of a frame. -/
structure Agrees (reservation : Reservation) (frame : Frame) : Prop where
  offset? : ∀ name, reservation.offsets.get? name = frame.offset? name
  size : reservation.size = frame.size

end Reservation

/-- A name behind all others lies at the end of the frame. -/
theorem Frame.offset?_concat {names : List String} {name : String} (hnew : name ∉ names)
    (other : String) :
    (Frame.mk (names ++ [name])).offset? other =
      if other = name then some (wordSize * (names.length + 1))
      else (Frame.mk names).offset? other := by
  split
  · next heq =>
      subst heq
      rw [Frame.offset?, idxOf?_append_cons hnew []]
      rfl
  · next hne =>
      have hbehind : [name].idxOf? other = none := List.idxOf?_eq_none_iff.2 (by simpa using hne)
      rw [Frame.offset?, Frame.offset?, List.idxOf?, List.findIdx?_append]
      rw [List.idxOf?] at hbehind
      rw [hbehind, Option.map_none, Option.or_none]

/-- One more name has the same effect on the words that are reserved as on the frame. -/
theorem Reservation.Agrees.reserve {reservation : Reservation} {names : List String}
    (hagrees : reservation.Agrees ⟨names.eraseDups⟩) (name : String) :
    (reservation.reserve name).Agrees ⟨(names ++ [name]).eraseDups⟩ := by
  have hknown : (reservation.offsets.get? name).isSome ↔ name ∈ names := by
    rw [hagrees.offset?, Frame.offset?, Option.isSome_map, List.isSome_idxOf?, List.mem_eraseDups]
  rw [eraseDups_concat, Reservation.reserve]
  by_cases hmem : name ∈ names
  · rw [if_pos (hknown.2 hmem), if_pos hmem]
    exact hagrees
  · rw [if_neg (hknown.not.2 hmem), if_neg hmem]
    have hsize : reservation.size + wordSize = wordSize * (names.eraseDups.length + 1) := by
      rw [hagrees.size]
      rfl
    constructor
    · intro other
      have hnew : name ∉ names.eraseDups := fun hkept => hmem (List.mem_eraseDups.1 hkept)
      rw [Bindings.get?_insert, Frame.offset?_concat hnew, hagrees.offset?, hsize]
    · rw [Frame.size, List.length_append]
      exact hsize

/-- Reserving a word at each first assignment, behind the words so far, gives the frame. -/
theorem Reservation.agrees_ofCommands (code : List Command) :
    (Reservation.ofCommands code).Agrees (Frame.ofCommands code) := by
  change Agrees ((assigned code).foldl Reservation.reserve empty) ⟨(assigned code).eraseDups⟩
  -- From the end of the list: a name finds the words that the names before it have been given.
  induction assigned code using List.reverseRecOn with
  | nil => exact ⟨fun name => rfl, rfl⟩
  | append_singleton names name ih =>
      rw [List.foldl_append]
      exact ih.reserve name

end Asm

/-! ## The words of a program -/

namespace Expr

mutual

/-- How many operators and calls an expression has. -/
def operations : Expr → Nat
  | .int _ | .bool _ | .var _ => 0
  | .unary _ operand => operand.operations + 1
  | .binary _ left right => left.operations + right.operations + 1
  | .call _ arguments => operationsAll arguments + 1

def operationsAll : List Expr → Nat
  | [] => 0
  | first :: rest => first.operations + operationsAll rest

end

mutual

/-- Each operator and each call puts its result into one temporary. -/
theorem length_temporaries_lower (expression : Expr) (names : Names) :
    (temporaries (expression.lower names).code).length = expression.operations := by
  cases expression with
  | int value => rfl
  | bool value => rfl
  | var name => rfl
  | unary operator operand =>
      rw [lower, Lowered.call, temporaries_append, List.length_append,
        length_temporaries_lower operand, operations]
      rfl
  | binary operator left right =>
      rw [lower, Lowered.call, temporaries_append, temporaries_append, List.length_append,
        List.length_append, length_temporaries_lower left, length_temporaries_lower right,
        operations]
      rfl
  | call function arguments =>
      rw [lower, Lowered.call, temporaries_append, List.length_append,
        length_temporaries_lowerAll arguments, operations]
      rfl

theorem length_temporaries_lowerAll (expressions : List Expr) (names : Names) :
    (temporaries (lowerAll expressions names).code).length = operationsAll expressions := by
  cases expressions with
  | nil => rfl
  | cons first rest =>
      rw [lowerAll, temporaries_append, List.length_append, length_temporaries_lower first,
        length_temporaries_lowerAll rest, operationsAll]

end

end Expr

namespace Stmt

/-- How many operators and calls a statement has. -/
def operations (statement : Stmt) : Nat :=
  (statement.actions.map fun action => action.value.operations).sum

mutual

theorem length_temporaries_lower (statement : Stmt) (names : Names) :
    (temporaries (statement.lower names).code).length = statement.operations := by
  cases statement with
  | empty => rfl
  | block body => exact length_temporaries_lowerAll body names
  | declaration name type value =>
      simp [lower, operations, actions, Action.value, Command.temporary?,
        Expr.length_temporaries_lower]
  | assignment name value =>
      simp [lower, operations, actions, Action.value, Command.temporary?,
        Expr.length_temporaries_lower]
  | conditional condition thenBranch elseBranch =>
      have hthen := length_temporaries_lower thenBranch
      have helse := length_temporaries_lower elseBranch
      cases hempty : elseBranch.isEmpty with
      | true =>
          rw [lower_ifThen hempty, eq_empty_of_isEmpty hempty]
          simp [operations, actions, Action.value, Command.temporary?, hthen,
            Expr.length_temporaries_lower]
      | false =>
          rw [lower_ifThenElse hempty]
          simp [operations, actions, Action.value, Command.temporary?, hthen, helse,
            Expr.length_temporaries_lower]
  | loop condition body =>
      simp [lower, operations, actions, Action.value, Command.temporary?,
        Expr.length_temporaries_lower, length_temporaries_lower body]
  | expression value =>
      rw [lower, Expr.length_temporaries_lower]
      simp [operations, actions, Action.value]

theorem length_temporaries_lowerAll (statements : List Stmt) (names : Names) :
    (temporaries (lowerAll statements names).code).length =
      ((actionsAll statements).map fun action => action.value.operations).sum := by
  cases statements with
  | nil => rfl
  | cons first rest =>
      rw [lowerAll, temporaries_append, List.length_append, length_temporaries_lower first,
        length_temporaries_lowerAll rest, actionsAll, List.map_append, List.sum_append, operations]

end

/-- The code of a program assigns its variables and the temporaries of its calls. -/
theorem mem_assigned_toIr_iff {program : Stmt} {name : String} :
    name ∈ assigned program.toIr ↔ name ∈ program.targets ∨ name ∈ temporaries program.toIr := by
  constructor
  · intro hname
    obtain ⟨command, hmem, hassigned⟩ := List.mem_filterMap.1 hname
    rcases mem_targets_or_call hmem hassigned with htarget | ⟨function, arguments, rfl, -⟩
    · exact .inl htarget
    · exact .inr (List.mem_filterMap.2 ⟨_, hmem, rfl⟩)
  · rintro (htarget | htemporary)
    · exact mem_assigned_of_mem_targets htarget
    · obtain ⟨command, hmem, hname⟩ := List.mem_filterMap.1 htemporary
      refine List.mem_filterMap.2 ⟨command, hmem, ?_⟩
      cases command with
      | call temporary function arguments => exact hname
      | copy _ _ | label _ | jump _ | jumpIf _ _ | jumpUnless _ _ => cases hname

/-- The frame of a program that was parsed has a word for each variable that is given a value and
one for each operator and each call. -/
theorem size_toIr {source : String} {program : Stmt} (hparse : Compiler.parse source = .ok program) :
    (Frame.ofCommands program.toIr).size =
      wordSize * program.targets.toFinset.card + wordSize * program.operations := by
  have hstores := program.stores_lower .initial
  -- Temporaries are no names of a source, and each call has one of its own.
  have hunion : (assigned program.toIr).toFinset =
      program.targets.toFinset ∪ (temporaries program.toIr).toFinset := by
    ext name
    simp only [List.mem_toFinset, Finset.mem_union, mem_assigned_toIr_iff]
  have hdisjoint : Disjoint program.targets.toFinset (temporaries program.toIr).toFinset := by
    refine Finset.disjoint_left.2 fun name htarget htemporary => ?_
    have hvar := mem_vars_of_mem_targets (List.mem_toFinset.1 htarget)
    exact not_isTemporary_of_parse hparse hvar (hstores.made name (List.mem_toFinset.1 htemporary))
  have htemporaries : (temporaries program.toIr).toFinset.card = program.operations :=
    calc
      _ = (temporaries program.toIr).length := List.toFinset_card_of_nodup hstores.nodup
      _ = program.operations := length_temporaries_lower program .initial
  rw [size_ofCommands, hunion, Finset.card_union_of_disjoint hdisjoint, htemporaries, Nat.mul_add]

end Stmt

namespace Asm

/-- The words of a frame stand in the order of the first assignments, from the first word below the
base on: a name that the code assigns behind `count` others has the next word, and a name that it
does not assign has none.  No word is shared and none is left out, so that the frame takes four
bytes for each name.  For a program that was parsed these are the names that it declares or assigns,
and one more for each operator and call. -/
theorem frame_fits_code :
    (∀ (code : List Command) (name : String) (offset : Nat),
        (Frame.ofCommands code).offset? name = some offset ↔
          ∃ count, AssignsNew code count name ∧ offset = 4 * (count + 1)) ∧
      (∀ (code : List Command) (first second : String) (offset : Nat),
        (Frame.ofCommands code).offset? first = some offset →
          (Frame.ofCommands code).offset? second = some offset → first = second) ∧
      (∀ (code : List Command) (offset : Nat),
        (∃ name, (Frame.ofCommands code).offset? name = some offset) ↔
          ∃ count < (assigned code).toFinset.card, offset = 4 * (count + 1)) ∧
      (∀ code, (Frame.ofCommands code).size = 4 * (assigned code).toFinset.card) ∧
      ∀ (source : String) (program : Stmt), Compiler.parse source = .ok program →
        (Frame.ofCommands program.toIr).size =
          4 * program.targets.toFinset.card + 4 * program.operations :=
  ⟨fun _ _ _ => offset?_eq_some_iff, fun _ _ _ _ => Machine.offset?_inj,
    fun _ _ => exists_offset?_iff, size_ofCommands, fun _ _ => Stmt.size_toIr⟩

/-- A source that gives values to two variables, to one of them twice. -/
def squaresSource : String :=
  "\x7b x: int := readInt(); while x > 0 do \x7b y: int := x * x; x := x - y; \x7d printInt(x); \x7d"

def squares : Stmt :=
  .block [.declaration "x" .int (.call "readInt" []),
    .loop (.binary ">" (.var "x") (.int 0))
      (.block [.declaration "y" .int (.binary "*" (.var "x") (.var "x")),
        .assignment "x" (.binary "-" (.var "x") (.var "y"))]),
    .expression (.call "printInt" [.var "x"])]

theorem parse_squares : Compiler.parse squaresSource = .ok squares := by
  cbv

/-- Four names are assigned before `y`, and seven in all. -/
theorem frame_fits_code_squares :
    Compiler.parse squaresSource = .ok squares ∧
      (Frame.ofCommands squares.toIr).size = 28 ∧
      (Frame.ofCommands squares.toIr).offset? "y" = some 20 ∧
      ∀ name, (Frame.ofCommands squares.toIr).offset? name = some 20 → name = "y" := by
  obtain ⟨hoffset, hinjective, -, -, hsize⟩ := frame_fits_code
  have hassigns : AssignsNew squares.toIr 4 "y" :=
    ⟨squares.toIr.take 6, .copy "y" (.variable "$resultOf_*_1"), squares.toIr.drop 7, rfl, rfl,
      by decide, by decide⟩
  have hy := (hoffset squares.toIr "y" 20).2 ⟨4, hassigns, rfl⟩
  exact ⟨parse_squares, (hsize squaresSource squares parse_squares).trans (by decide), hy,
    fun name hname => hinjective squares.toIr name "y" 20 hname hy⟩

end Asm

end WhileCompiler
