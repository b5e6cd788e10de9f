import WhileCompiler.Asm.Routine
import WhileCompiler.Proofs.Machine.ReadingInstructions

/-!
# The layout of loaded programs

Instructions are numbered in the order of their lines.  Labels and directives take up no place, and
a label stands for the number of the instructions in front of it.
-/

namespace WhileCompiler

namespace Bindings

variable {α : Type}

theorem get?_foldl_of_not_mem {entries : List (String × α)} {name : String}
    (hname : name ∉ entries.map Prod.fst) (bindings : Bindings α) :
    (entries.foldl (fun bindings entry => bindings.insert entry.1 entry.2) bindings).get? name =
      bindings.get? name := by
  induction entries generalizing bindings with
  | nil => rfl
  | cons entry rest ih =>
      simp only [List.map_cons, List.mem_cons, not_or] at hname
      rw [List.foldl_cons, ih hname.2, get?_insert_of_ne _ _ hname.1]

theorem get?_ofList_of_not_mem {entries : List (String × α)} {name : String}
    (hname : name ∉ entries.map Prod.fst) : (ofList entries).get? name = none :=
  get?_foldl_of_not_mem hname empty

/-- Among bindings of one name, the last one counts. -/
theorem get?_ofList_of_last {before after : List (String × α)} {name : String} {value : α}
    (hlast : name ∉ after.map Prod.fst) :
    (ofList (before ++ (name, value) :: after)).get? name = some value := by
  rw [ofList, List.foldl_append, List.foldl_cons, get?_foldl_of_not_mem hlast, get?_insert_self]

theorem get?_foldl_eq_some {entries : List (String × α)} {bindings : Bindings α} {name : String}
    {value : α}
    (hfound : (entries.foldl (fun bindings entry => bindings.insert entry.1 entry.2) bindings).get?
      name = some value) : (name, value) ∈ entries ∨ bindings.get? name = some value := by
  induction entries generalizing bindings with
  | nil => exact .inr hfound
  | cons entry rest ih =>
      rcases ih hfound with hrest | hfirst
      · exact .inl (List.mem_cons_of_mem _ hrest)
      · rw [get?_insert] at hfirst
        split at hfirst
        · next hname =>
            obtain rfl := Option.some.inj hfirst
            exact .inl (List.mem_cons.2 (.inl (Prod.ext hname rfl)))
        · exact .inr hfirst

theorem mem_of_get?_ofList {entries : List (String × α)} {name : String} {value : α}
    (hfound : (ofList entries).get? name = some value) : (name, value) ∈ entries :=
  (get?_foldl_eq_some hfound).resolve_right nofun

end Bindings

open Asm Text

namespace Asm

/-- Whether the machine reads a line as what it is. -/
def Line.IsReadable : Line → Prop
  | .directive text => text.toList.head? = some '.'
  | .label name => isIdentifier name.toList = true
  | .instruction code => ∀ target ∈ code.target?, isIdentifier target.toList = true

def Line.instruction? : Line → Option (Instruction Operand)
  | .instruction code => some code
  | .directive _ | .label _ => none

def Line.label? : Line → Option String
  | .label name => some name
  | .directive _ | .instruction _ => none

/-- The instructions among lines. -/
def instructionsOf (lines : List Line) : List (Instruction Operand) :=
  lines.filterMap Line.instruction?

/-- The names of the labels among lines. -/
def labelsOf (lines : List Line) : List String :=
  lines.filterMap Line.label?

theorem instructionsOf_map (block : List (Instruction Operand)) :
    instructionsOf (block.map .instruction) = block := by
  induction block with
  | nil => rfl
  | cons instruction rest ih => exact congrArg (instruction :: ·) ih

/-- Instructions can be read if the names in them are identifiers. -/
theorem isReadable_map {block : List (Instruction Operand)}
    (htargets : ∀ instruction ∈ block, ∀ target ∈ instruction.target?,
      isIdentifier target.toList = true) :
    ∀ line ∈ block.map Line.instruction, line.IsReadable := by
  intro line hline
  obtain ⟨instruction, hinstruction, rfl⟩ := List.mem_map.1 hline
  exact htargets instruction hinstruction

end Asm

namespace Machine

theorem head?_trim {c : Char} (hblank : isBlank c = false) (rest : List Char) :
    (trim (c :: rest)).head? = some c := by
  have hstart : trimStart (c :: rest) = c :: rest := trimStart_eq_self (by simpa using hblank)
  rw [trim, hstart, trimEnd, List.head?_reverse, List.reverse_cons, trimStart,
    List.dropWhile_append]
  split <;> simp [hblank]

theorem readLine?_directive {text : String} (htext : text.toList.head? = some '.') :
    readLine? (indented (Line.text (.directive text))) = none := by
  obtain ⟨first, rest, hlist⟩ : ∃ first rest, text.toList = first :: rest := by
    cases hlist : text.toList with
    | nil => rw [hlist] at htext; cases htext
    | cons first rest => exact ⟨first, rest, rfl⟩
  rw [hlist] at htext
  obtain rfl : first = '.' := Option.some.inj htext
  have hindented : indented (Line.text (.directive text)) = text := by
    simp [indented, Line.text, hlist]
  have hhead : (trim text.toList).head? = some '.' := hlist ▸ head?_trim (by decide) rest
  rw [readLine?, hindented]
  simp [hhead]

/-- What the lines of a listing contribute to a program. -/
def entriesOf (lines : List Line) : List Entry :=
  lines.filterMap fun line => readLine? (indented line.text)

theorem ofListing_eq (lines : List Line) :
    Program.ofListing (lines.map fun line => indented line.text) =
      Program.ofEntries (entriesOf lines) := by
  rw [Program.ofListing, List.filterMap_map]
  rfl

theorem entriesOf_append (before after : List Line) :
    entriesOf (before ++ after) = entriesOf before ++ entriesOf after :=
  List.filterMap_append

theorem entriesOf_cons_directive {text : String} (htext : text.toList.head? = some '.')
    (rest : List Line) : entriesOf (.directive text :: rest) = entriesOf rest := by
  simp [entriesOf, readLine?_directive htext]

theorem entriesOf_cons_label {name : String} (hname : isIdentifier name.toList = true)
    (rest : List Line) : entriesOf (.label name :: rest) = .label name :: entriesOf rest := by
  have hword := isWord_of_isIdentifier hname
  simp [entriesOf, readLine?_label hword.1 hword.2]

theorem entriesOf_cons_instruction {instruction : Instruction Operand}
    (htarget : ∀ target ∈ instruction.target?, isIdentifier target.toList = true)
    (rest : List Line) :
    ∃ cell, entriesOf (.instruction instruction :: rest) = .cell cell :: entriesOf rest ∧
      ((∀ operand ∈ instruction.operands, operand.Fits) → cell = .run instruction) := by
  obtain ⟨cell, hread, hcell⟩ := reads_instruction instruction htarget
  refine ⟨cell, ?_, hcell⟩
  simp [entriesOf, Line.text, hread]

theorem cells_append (before after : List Entry) :
    Program.cells (before ++ after) = Program.cells before ++ Program.cells after := by
  induction before with
  | nil => rfl
  | cons entry rest ih => cases entry <;> simp [Program.cells, ih]

theorem length_cells_entriesOf {lines : List Line} (hlines : ∀ line ∈ lines, line.IsReadable) :
    (Program.cells (entriesOf lines)).length = (instructionsOf lines).length := by
  induction lines with
  | nil => rfl
  | cons line rest ih =>
      have hline := hlines line List.mem_cons_self
      have hrest := ih fun other hother => hlines other (List.mem_cons_of_mem _ hother)
      cases line with
      | directive text =>
          rw [entriesOf_cons_directive hline, hrest]
          rfl
      | label name =>
          rw [entriesOf_cons_label hline, Program.cells, hrest]
          rfl
      | instruction code =>
          obtain ⟨cell, hentries, -⟩ := entriesOf_cons_instruction hline rest
          rw [hentries, Program.cells, List.length_cons, hrest]
          rfl

/-- Instructions with numbers that fit are in memory as they were written. -/
theorem cells_entriesOf {lines : List Line} (hlines : ∀ line ∈ lines, line.IsReadable)
    (hfits : ∀ instruction ∈ instructionsOf lines, ∀ operand ∈ instruction.operands,
      operand.Fits) :
    Program.cells (entriesOf lines) = (instructionsOf lines).map .run := by
  induction lines with
  | nil => rfl
  | cons line rest ih =>
      rw [List.forall_mem_cons] at hlines
      cases line with
      | directive text =>
          rw [entriesOf_cons_directive hlines.1]
          exact ih hlines.2 hfits
      | label name =>
          rw [entriesOf_cons_label hlines.1]
          exact ih hlines.2 hfits
      | instruction code =>
          obtain ⟨cell, hentries, hcell⟩ := entriesOf_cons_instruction hlines.1 rest
          rw [hentries, Program.cells, hcell (hfits code List.mem_cons_self)]
          exact congrArg _
            (ih hlines.2 fun other hmem => hfits other (List.mem_cons_of_mem _ hmem))

/-! ## Where instructions and labels are -/

theorem labelsFrom_append (position : Nat) (before after : List Entry) :
    Program.labelsFrom position (before ++ after) = Program.labelsFrom position before ++
      Program.labelsFrom (position + (Program.cells before).length) after := by
  induction before generalizing position with
  | nil => rfl
  | cons entry rest ih =>
      cases entry with
      | label name => simp [Program.labelsFrom, Program.cells, ih]
      | cell cell =>
          simp [Program.labelsFrom, Program.cells, ih, Nat.add_assoc, Nat.add_comm 1]

theorem names_labelsFrom {lines : List Line} (hlines : ∀ line ∈ lines, line.IsReadable)
    (position : Nat) :
    (Program.labelsFrom position (entriesOf lines)).map Prod.fst = labelsOf lines := by
  induction lines generalizing position with
  | nil => rfl
  | cons line rest ih =>
      have hline := hlines line List.mem_cons_self
      have hrest (position : Nat) := ih (fun other hother =>
        hlines other (List.mem_cons_of_mem _ hother)) position
      cases line with
      | directive text =>
          rw [entriesOf_cons_directive hline, hrest]
          rfl
      | label name =>
          rw [entriesOf_cons_label hline, Program.labelsFrom, List.map_cons, hrest]
          rfl
      | instruction code =>
          obtain ⟨cell, hentries, -⟩ := entriesOf_cons_instruction hline rest
          rw [hentries, Program.labelsFrom, hrest]
          rfl

/-- Instructions that stand at a position of a program. -/
def Loaded (program : Program) (position : Nat) (block : List (Instruction Operand)) : Prop :=
  ∀ index instruction, block[index]? = some instruction →
    program.code[position + index]? = some (.run instruction)

/-- How many instructions a listing has. -/
def instructionCount (listing : List String) : Nat :=
  (Program.cells (listing.filterMap readLine?)).length

theorem instructionCount_append (before after : List String) :
    instructionCount (before ++ after) = instructionCount before + instructionCount after := by
  rw [instructionCount, List.filterMap_append, cells_append, List.length_append]
  rfl

/-- The lines of instructions in a listing. -/
def blockLines (block : List (Instruction Operand)) : List String :=
  (block.map Line.instruction).map fun line => indented line.text

section

variable {lines before after : List Line}

theorem instructionCount_of_readable (hlines : ∀ line ∈ lines, line.IsReadable) :
    instructionCount (lines.map fun line => indented line.text) =
      (instructionsOf lines).length := by
  rw [← length_cells_entriesOf hlines, instructionCount, List.filterMap_map]
  rfl

/-- Instructions with numbers that fit are in memory as they were written, wherever they stand. -/
theorem loaded_between (before after : List String) (hlines : ∀ line ∈ lines, line.IsReadable)
    (hfits : ∀ instruction ∈ instructionsOf lines, ∀ operand ∈ instruction.operands,
      operand.Fits) :
    Loaded (Program.ofListing (before ++ (lines.map fun line => indented line.text) ++ after))
      (instructionCount before) (instructionsOf lines) := by
  intro index instruction hinstruction
  have hindex : index < (instructionsOf lines).length :=
    (List.getElem?_eq_some_iff.1 hinstruction).1
  have hentries : (lines.map fun line => indented line.text).filterMap readLine? =
      entriesOf lines := List.filterMap_map
  rw [Program.ofListing, Program.ofEntries, List.filterMap_append, List.filterMap_append,
    cells_append, cells_append, hentries, cells_entriesOf hlines hfits, instructionCount,
    List.getElem?_toArray, List.append_assoc, List.getElem?_append_right (Nat.le_add_right _ _),
    Nat.add_sub_cancel_left, List.getElem?_append_left (by simpa using hindex), List.getElem?_map,
    hinstruction]
  rfl

theorem loaded_lines (hlines : ∀ line ∈ lines, line.IsReadable) {inner : List Line}
    (hinner : lines = before ++ inner ++ after)
    (hfits : ∀ instruction ∈ instructionsOf inner, ∀ operand ∈ instruction.operands,
      operand.Fits) :
    Loaded (Program.ofListing (lines.map fun line => indented line.text))
      (instructionsOf before).length (instructionsOf inner) := by
  subst hinner
  have hbefore : ∀ line ∈ before, line.IsReadable := fun line hline => hlines line (by simp [hline])
  rw [← instructionCount_of_readable hbefore, List.map_append, List.map_append]
  exact loaded_between _ _ (fun line hline => hlines line (by simp [hline])) hfits

theorem loaded_block (hlines : ∀ line ∈ lines, line.IsReadable)
    {block : List (Instruction Operand)}
    (hblock : lines = before ++ block.map .instruction ++ after)
    (hfits : ∀ instruction ∈ block, ∀ operand ∈ instruction.operands, operand.Fits) :
    Loaded (Program.ofListing (lines.map fun line => indented line.text))
      (instructionsOf before).length block := by
  rw [← instructionsOf_map block] at hfits
  have hloaded := loaded_lines hlines hblock hfits
  rwa [instructionsOf_map] at hloaded

/-- A line that is read as a place in the code is where the instructions in front of it end. -/
theorem code_of_cell (hlines : ∀ line ∈ lines, line.IsReadable) {line : Line} {cell : Cell}
    (hread : readLine? (indented line.text) = some (.cell cell))
    (hline : lines = before ++ line :: after) :
    (Program.ofListing (lines.map fun line => indented line.text)).code[
      (instructionsOf before).length]? = some cell := by
  subst hline
  have hlength := length_cells_entriesOf fun line (hline : line ∈ before) =>
    hlines line (by simp [hline])
  have hentries : entriesOf (line :: after) = .cell cell :: entriesOf after := by
    simp [entriesOf, hread]
  rw [ofListing_eq, Program.ofEntries, entriesOf_append, cells_append, hentries, ← hlength,
    List.getElem?_toArray, List.getElem?_append_right (Nat.le_refl _), Nat.sub_self]
  rfl

/-- A label stands for the place of its last definition. -/
theorem position?_of_label (hlines : ∀ line ∈ lines, line.IsReadable) {name : String}
    (hlabel : lines = before ++ .label name :: after) (hlast : name ∉ labelsOf after) :
    (Program.ofListing (lines.map fun line => indented line.text)).position? name =
      some (instructionsOf before).length := by
  subst hlabel
  have hname : Line.IsReadable (.label name) := hlines _ (by simp)
  have hlength := length_cells_entriesOf fun line (hline : line ∈ before) =>
    hlines line (by simp [hline])
  rw [ofListing_eq, Program.position?, Program.ofEntries, entriesOf_append, labelsFrom_append,
    entriesOf_cons_label hname, hlength, Nat.zero_add]
  apply Bindings.get?_ofList_of_last
  rwa [names_labelsFrom fun line hline => hlines line (by simp [hline])]

theorem position?_of_not_mem (hlines : ∀ line ∈ lines, line.IsReadable) {name : String}
    (hname : name ∉ labelsOf lines) :
    (Program.ofListing (lines.map fun line => indented line.text)).position? name = none := by
  rw [← names_labelsFrom hlines 0] at hname
  rw [ofListing_eq, Program.position?, Program.ofEntries]
  exact Bindings.get?_ofList_of_not_mem hname

/-- What a label stands for is a place where it is defined. -/
theorem mem_labelsFrom_of_position? {name : String} {position : Nat}
    (hposition : (Program.ofListing (lines.map fun line => indented line.text)).position? name =
      some position) : (name, position) ∈ Program.labelsFrom 0 (entriesOf lines) := by
  rw [ofListing_eq, Program.position?, Program.ofEntries] at hposition
  exact Bindings.mem_of_get?_ofList hposition

end

end Machine

end WhileCompiler
