import WhileCompiler.Proofs.Asm.EmittedCode
import WhileCompiler.Proofs.Machine.SoundInstructions

/-!
# The symbols of a listing

What the lines of a listing say about symbols: which ones they define, where they jump, what they
call, and what they leave to the linker.  The lines that are emitted for code say about symbols what
the commands say, and the shell around them adds its own two labels and the call of the routine.
-/

namespace WhileCompiler

open Ir Text

namespace Asm

/-- What a line of a listing does with a symbol. -/
inductive SymbolUse
  | definition (name : String)
  | jump (target : String)
  | call (target : String)
  | external (name : String)
  deriving DecidableEq, Repr

namespace SymbolUse

def symbol : SymbolUse → String
  | definition symbol | jump symbol | call symbol | external symbol => symbol

/-- What the first word of a line does with the rest of the line. -/
def ofWord? (word rest : String) : Option SymbolUse :=
  if word = "jmp" ∨ word = "je" ∨ word = "jne" then some (jump rest)
  else if word = "call" then some (call rest)
  else if word = ".extern" then some (external rest)
  else none

/-- Reads a line.  A label ends in a colon, and every other line begins with what it does. -/
def ofLine? (line : String) : Option SymbolUse :=
  let text := trim line.toList
  if text.getLast? = some ':' then some (definition (String.ofList text.dropLast))
  else ofWord? (String.ofList (text.takeWhile (· ≠ ' ')))
    (String.ofList (text.dropWhile (· ≠ ' ')).tail)

end SymbolUse

open SymbolUse

def Instruction.use? {α : Type} : Instruction α → Option SymbolUse
  | jump label | jumpIfEqual label | jumpIfNotEqual label => some (.jump label)
  | call target => some (.call target)
  | move _ _ | combine _ _ _ | negate _ | extendSign | divide _ | compare _ _ | moveIf _ _ _
  | push _ | pop _ | ret | systemCall => none

/-- What the lines of a command do with a symbol. -/
def commandUse? (builtins : Builtins) : Command → Option SymbolUse
  | .label name => some (.definition name)
  | .jump target | .jumpIf target _ | .jumpUnless target _ => some (.jump target)
  | .call destination function arguments =>
    (external? builtins (.call destination function arguments)).map .call
  | .copy _ _ => none

/-- The symbol of a use is spelled like a name. -/
def SymbolUse.IsNamed (use : SymbolUse) : Prop :=
  isIdentifier use.symbol.toList = true

/-- What a listing does with symbols, in the order of its lines. -/
def uses (listing : List String) : List SymbolUse :=
  listing.filterMap SymbolUse.ofLine?

theorem uses_append (before after : List String) :
    uses (before ++ after) = uses before ++ uses after :=
  List.filterMap_append

theorem Instruction.target?_eq_use? {α : Type} (instruction : Instruction α) :
    instruction.target? = instruction.use?.map SymbolUse.symbol := by
  cases instruction <;> rfl

theorem Instruction.use?_map {α β : Type} (f : α → β) (instruction : Instruction α) :
    (instruction.map f).use? = instruction.use? := by
  cases instruction <;> rfl

end Asm

open Asm

namespace Machine

/-! ## Reading lines -/

theorem ofLine?_written {mnemonic : String} {operands : List String} (hne : operands ≠ [])
    (hmnemonic : IsWord mnemonic.toList) (hwords : ∀ text ∈ operands, IsWord text.toList) :
    SymbolUse.ofLine? (indented (written mnemonic operands)) =
      SymbolUse.ofWord? mnemonic (commaSeparated operands) := by
  obtain ⟨first, last, hfirst, hlast, -, hplain, hplain'⟩ := ends_written hne hmnemonic hwords
  have hcolon : last ≠ ':' := hplain'.2.2
  rw [SymbolUse.ofLine?, trim_indented hfirst hlast hplain.1 hplain'.1,
    takeWhile_written hmnemonic, dropWhile_written hmnemonic]
  simp [hlast, hcolon]

theorem ofLine?_label {name : String} (hname : isIdentifier name.toList = true) :
    SymbolUse.ofLine? (indented (Line.text (.label name))) = some (.definition name) := by
  simp [SymbolUse.ofLine?, trim_label (isWord_of_isIdentifier hname).1]

theorem ofLine?_transfer {word : String} (hword : IsWord word.toList)
    {use : String → SymbolUse} (huse : ∀ rest, SymbolUse.ofWord? word rest = some (use rest))
    {symbol : String} (hsymbol : isIdentifier symbol.toList = true) :
    SymbolUse.ofLine? (indented (written word [symbol])) = some (use symbol) := by
  have hsymbols : ∀ text ∈ [symbol], IsWord text.toList := by
    simpa using (isWord_of_isIdentifier hsymbol).1
  rw [ofLine?_written (List.cons_ne_nil _ _) hword hsymbols, huse, commaSeparated,
    String.intercalate_singleton]

theorem ofLine?_external {name : String} (hname : isIdentifier name.toList = true) :
    SymbolUse.ofLine? (indented (Line.text (.directive s!".extern {name}"))) =
      some (.external name) := by
  have htext : Line.text (.directive s!".extern {name}") = written ".extern" [name] := by
    apply String.toList_injective
    simp [Line.text, toList_written, commaSeparated, String.toList_append, toString]
  rw [htext]
  exact ofLine?_transfer (by decide) (fun _ => rfl) hname

/-- Instructions use the symbols that they go to, and no others. -/
theorem ofLine?_instruction (instruction : Instruction Operand)
    (hnamed : ∀ use ∈ instruction.use?, use.IsNamed) :
    SymbolUse.ofLine? (indented (Line.text (.instruction instruction))) = instruction.use? := by
  have hplain {mnemonic : String} (hmnemonic : IsWord mnemonic.toList)
      (hnone : ∀ rest, SymbolUse.ofWord? mnemonic rest = none) (operands : List Operand)
      (hne : operands ≠ []) :
      SymbolUse.ofLine? (indented (written mnemonic (operands.map Operand.text))) = none := by
    have hwords : ∀ text ∈ operands.map Operand.text, IsWord text.toList := by
      simp [isWord_operandText]
    rw [ofLine?_written (by simpa using hne) hmnemonic hwords, hnone]
  cases instruction with
  | move source destination =>
      exact hplain (by decide) (fun _ => rfl) [source, destination] (by simp)
  | combine operation source destination =>
      refine hplain ?_ ?_ [source, destination] (by simp)
      · cases operation <;> decide
      · cases operation <;> exact fun _ => rfl
  | negate destination => exact hplain (by decide) (fun _ => rfl) [destination] (by simp)
  | extendSign => rfl
  | divide divisor => exact hplain (by decide) (fun _ => rfl) [divisor] (by simp)
  | compare source destination =>
      exact hplain (by decide) (fun _ => rfl) [source, destination] (by simp)
  | moveIf condition source destination =>
      refine hplain ?_ ?_ [source, destination] (by simp)
      · cases condition <;> decide
      · cases condition <;> exact fun _ => rfl
  | jump label => exact ofLine?_transfer (by decide) (fun _ => rfl) (hnamed _ rfl)
  | jumpIfEqual label => exact ofLine?_transfer (by decide) (fun _ => rfl) (hnamed _ rfl)
  | jumpIfNotEqual label => exact ofLine?_transfer (by decide) (fun _ => rfl) (hnamed _ rfl)
  | push source => exact hplain (by decide) (fun _ => rfl) [source] (by simp)
  | pop destination => exact hplain (by decide) (fun _ => rfl) [destination] (by simp)
  | call target => exact ofLine?_transfer (by decide) (fun _ => rfl) (hnamed _ rfl)
  | ret => rfl
  | systemCall => rfl

/-! ## Reading what is emitted -/

/-- What lines do with symbols once they are printed. -/
def usesOf (lines : List Line) : List SymbolUse :=
  uses (lines.map fun line => indented line.text)

theorem usesOf_append (before after : List Line) :
    usesOf (before ++ after) = usesOf before ++ usesOf after := by
  rw [usesOf, List.map_append, uses_append]
  rfl

theorem usesOf_cons_of_some {line : Line} {use : SymbolUse}
    (huse : SymbolUse.ofLine? (indented line.text) = some use) (rest : List Line) :
    usesOf (line :: rest) = use :: usesOf rest := by
  simp [usesOf, uses, huse]

theorem usesOf_block {block : List (Instruction Operand)} {found : List SymbolUse}
    (hfound : block.filterMap Instruction.use? = found) (hnamed : ∀ use ∈ found, use.IsNamed) :
    usesOf (block.map .instruction) = found := by
  subst hfound
  induction block with
  | nil => rfl
  | cons instruction rest ih =>
      have hread := ofLine?_instruction instruction fun use huse =>
        hnamed use (List.mem_filterMap.2 ⟨instruction, List.mem_cons_self, huse⟩)
      have hrest := ih fun use huse => hnamed use (by
        rw [List.filterMap_cons]
        split <;> simp [huse])
      rw [List.filterMap_cons, ← hrest]
      cases huse : instruction.use? with
      | none => simp [usesOf, uses, hread, huse]
      | some use => exact usesOf_cons_of_some (hread.trans huse) _

/-- Operators are computed in place. -/
theorem filterMap_use?_recipe (operator : Operator) {operands : List Operand}
    (hcount : operands.length = operator.recipe.arity) :
    (operator.recipe.instructions operands hcount).filterMap Instruction.use? = [] := by
  rw [List.filterMap_eq_nil_iff]
  intro instruction hmem
  obtain ⟨generic, hgeneric, rfl⟩ := List.mem_map.1 hmem
  have htarget := (recipe_plain operator generic hgeneric).1
  rw [Instruction.target?_eq_use?, Option.map_eq_none_iff] at htarget
  rw [Instruction.use?_map, htarget]

theorem filterMap_use?_called (pushed : List Operand) (function : String) (count : Nat)
    (slot : Operand) :
    (pushed.map Instruction.push ++ Instruction.call function :: release count ++
      [Instruction.move (.register .eax) slot]).filterMap Instruction.use? =
        [.call function] := by
  have hpushes : (pushed.map Instruction.push).filterMap Instruction.use? = [] := by
    simp [List.filterMap_map, Instruction.use?, Function.comp_def]
  have hrelease : (release count).filterMap Instruction.use? = [] := by
    rw [release]
    split <;> rfl
  rw [List.filterMap_append, List.filterMap_append, hpushes, List.filterMap_cons, hrelease]
  rfl

section

variable {builtins : Builtins} {frame : Frame} {lines : List Line}

/-- Functions outside the program are those that are called and not computed in place. -/
theorem exists_call_of_external {code : List Command} {name : String}
    (hname : name ∈ code.filterMap (external? builtins)) :
    ∃ destination arguments, .call destination name arguments ∈ code ∧
      builtins.recipe? name = none := by
  obtain ⟨command, hmem, hexternal⟩ := List.mem_filterMap.1 hname
  cases command with
  | call destination function arguments =>
      rw [external?] at hexternal
      split at hexternal
      · next hnone =>
          obtain rfl := Option.some.inj hexternal
          exact ⟨destination, arguments, hmem, Option.isNone_iff_eq_none.1 hnone⟩
      · cases hexternal
  | copy | label | jump | jumpIf | jumpUnless => cases hexternal

/-- The lines of a command are its label, or instructions that use the symbol of the command. -/
theorem emit_uses {command : Command} (hlines : emit builtins frame command = .ok lines) :
    (∃ name, command = .label name ∧ lines = [.label name]) ∨
      command.label? = none ∧ ∃ block : List (Instruction Operand), lines = block.map .instruction ∧
        block.filterMap Instruction.use? = (commandUse? builtins command).toList := by
  cases command with
  | label name => exact .inl ⟨name, rfl, (Except.ok.inj hlines).symm⟩
  | copy destination value =>
      obtain ⟨operand, slot, -, -, rfl⟩ := emit_copy hlines
      exact .inr ⟨rfl, _, rfl, rfl⟩
  | call destination function arguments =>
      cases hrecipe : builtins.recipe? function with
      | some recipe =>
          obtain ⟨hcount, found, slot, -, -, rfl⟩ := emit_operator hrecipe hlines
          obtain ⟨operator, -, rfl⟩ := Option.map_eq_some_iff.1 hrecipe
          refine .inr ⟨rfl, _, rfl, ?_⟩
          rw [List.filterMap_append, filterMap_use?_recipe]
          simp [commandUse?, external?, hrecipe, Instruction.use?]
      | none =>
          obtain ⟨found, slot, -, -, rfl⟩ := emit_routine hrecipe hlines
          refine .inr ⟨rfl, _, rfl, ?_⟩
          rw [filterMap_use?_called]
          simp [commandUse?, external?, hrecipe]
  | jump target =>
      obtain rfl := Except.ok.inj hlines
      exact .inr ⟨rfl, [.jump target], rfl, rfl⟩
  | jumpIf target condition =>
      obtain ⟨operand, -, rfl⟩ := branch_eq hlines
      exact .inr ⟨rfl, _, rfl, rfl⟩
  | jumpUnless target condition =>
      obtain ⟨operand, -, rfl⟩ := branch_eq hlines
      exact .inr ⟨rfl, _, rfl, rfl⟩

/-- The lines of a command do with symbols what the command does. -/
theorem usesOf_emit {command : Command}
    (hnamed : ∀ use ∈ commandUse? builtins command, use.IsNamed)
    (hlines : emit builtins frame command = .ok lines) :
    usesOf lines = (commandUse? builtins command).toList := by
  rcases emit_uses hlines with ⟨name, rfl, rfl⟩ | ⟨-, block, rfl, huses⟩
  · exact usesOf_cons_of_some (ofLine?_label (hnamed _ rfl)) []
  · exact usesOf_block huses fun use huse => hnamed use (Option.mem_toList.1 huse)

/-- Instructions go where their command goes, or to the function that it calls. -/
theorem target_of_mem_emit {command : Command} (hlines : emit builtins frame command = .ok lines)
    {instruction : Instruction Operand} (hinstruction : instruction ∈ instructionsOf lines)
    {target : String} (htarget : target ∈ instruction.target?) :
    target ∈ command.target? ∨ target ∈ external? builtins command := by
  rcases emit_uses hlines with ⟨name, rfl, rfl⟩ | ⟨hlabel, block, rfl, huses⟩
  · cases hinstruction
  · rw [instructionsOf_map] at hinstruction
    rw [Instruction.target?_eq_use?] at htarget
    obtain ⟨use, huse, rfl⟩ := Option.map_eq_some_iff.1 htarget
    have hmem : use ∈ block.filterMap Instruction.use? :=
      List.mem_filterMap.2 ⟨instruction, hinstruction, huse⟩
    rw [huses, Option.mem_toList] at hmem
    cases command with
    | copy destination value => cases hmem
    | label name => cases hlabel
    | call destination function arguments =>
        obtain ⟨symbol, hsymbol, rfl⟩ := Option.map_eq_some_iff.1 hmem
        exact .inr hsymbol
    | jump target | jumpIf target condition | jumpUnless target condition =>
        obtain rfl := Option.some.inj hmem
        exact .inl rfl

/-- The symbols that the lines use are those of the commands, in the same order. -/
theorem usesOf_emitAll {code : List Command}
    (hnamed : ∀ use ∈ code.filterMap (commandUse? builtins), use.IsNamed)
    (hlines : emitAll builtins frame code = .ok lines) :
    usesOf lines = code.filterMap (commandUse? builtins) := by
  induction code generalizing lines with
  | nil =>
      obtain rfl := Except.ok.inj hlines
      rfl
  | cons first rest ih =>
      obtain ⟨chunk, others, hchunk, hothers, rfl⟩ := emitAll_cons hlines
      have hsplit : (first :: rest).filterMap (commandUse? builtins) =
          (commandUse? builtins first).toList ++ rest.filterMap (commandUse? builtins) := by
        rw [List.filterMap_cons]
        cases commandUse? builtins first <;> rfl
      rw [hsplit] at hnamed ⊢
      rw [usesOf_append, usesOf_emit (fun use huse => hnamed use (by simp_all)) hchunk,
        ih (fun use huse => hnamed use (List.mem_append_right _ huse)) hothers]

end

/-! ## Listings -/

/-- What the shell does with symbols. -/
def shellUses : List SymbolUse :=
  [.definition "_start", .call "main", .definition "main"]

theorem usesOf_shell : usesOf Routine.shell = shellUses := by
  decide

theorem usesOf_externals {names : List String}
    (hnames : ∀ name ∈ names, isIdentifier name.toList = true) :
    usesOf (names.map fun name => .directive s!".extern {name}") =
      names.map .external := by
  induction names with
  | nil => rfl
  | cons name rest ih =>
      rw [List.map_cons, List.map_cons, usesOf_cons_of_some (ofLine?_external
        (hnames name List.mem_cons_self)),
        ih fun other hother => hnames other (List.mem_cons_of_mem _ hother)]

end Machine

/-! ## The functions that are left to the linker -/

namespace Asm

theorem mem_insertName {name other : String} {names : List String} :
    other ∈ insertName name names ↔ other = name ∨ other ∈ names := by
  induction names with
  | nil => simp [insertName]
  | cons first rest ih =>
      rw [insertName]
      split
      · rw [List.mem_cons]
      · split
        · next heq => simp [heq]
        · rw [List.mem_cons, ih, List.mem_cons]
          exact or_left_comm

theorem pairwise_insertName {name : String} {names : List String}
    (hnames : names.Pairwise (· < ·)) : (insertName name names).Pairwise (· < ·) := by
  induction names with
  | nil => exact List.pairwise_singleton _ _
  | cons first rest ih =>
      obtain ⟨hfirst, hrest⟩ := List.pairwise_cons.1 hnames
      rw [insertName]
      split
      · next hlt =>
          refine List.pairwise_cons.2 ⟨?_, hnames⟩
          intro other hother
          rcases List.mem_cons.1 hother with rfl | hother
          · exact hlt
          · exact String.lt_trans hlt (hfirst other hother)
      · next hle =>
          split
          · exact hnames
          · next hne =>
              have hlt : first < name := Std.lt_of_le_of_ne (String.not_lt.1 hle) (Ne.symm hne)
              refine List.pairwise_cons.2 ⟨?_, ih hrest⟩
              intro other hother
              rcases mem_insertName.1 hother with rfl | hother
              · exact hlt
              · exact hfirst other hother

theorem mem_foldr_insertName {name : String} {names : List String} :
    name ∈ names.foldr insertName [] ↔ name ∈ names := by
  induction names with
  | nil => rfl
  | cons first rest ih => rw [List.foldr_cons, mem_insertName, ih, List.mem_cons]

theorem pairwise_foldr_insertName (names : List String) :
    (names.foldr insertName []).Pairwise (· < ·) := by
  induction names with
  | nil => exact List.Pairwise.nil
  | cons first rest ih => exact pairwise_insertName ih

end Asm

namespace Machine

theorem mem_external {builtins : Builtins} {code : List Command} {name : String} :
    name ∈ code.filterMap (external? builtins) ↔
      .call name ∈ code.filterMap (commandUse? builtins) := by
  rw [List.mem_filterMap, List.mem_filterMap]
  refine exists_congr fun command => and_congr_right fun _ => ?_
  cases command <;> simp [commandUse?, external?]

/-- A listing does with symbols what its code does, and what the shell does. -/
theorem uses_listing {builtins : Builtins} {code : List Command} {lines : List String}
    (hnamed : ∀ use ∈ code.filterMap (commandUse? builtins), use.IsNamed)
    (hlines : listing builtins code = .ok lines) :
    uses lines = ((code.filterMap (external? builtins)).foldr insertName []).map .external ++
      shellUses ++ code.filterMap (commandUse? builtins) := by
  obtain ⟨routine, emitted, hemitted, hroutine, hexternals, rfl⟩ := listing_eq hlines
  have hnames : ∀ name ∈ routine.externals, isIdentifier name.toList = true := by
    intro name hname
    rw [hexternals, mem_foldr_insertName, mem_external] at hname
    exact hnamed _ hname
  have hprologue : usesOf ((prologue (Frame.ofCommands code)).map .instruction) = [] := by
    refine usesOf_block ?_ nofun
    rw [prologue, List.filterMap_append]
    split <;> rfl
  have hepilogue : usesOf (epilogue.map .instruction) = [] := usesOf_block rfl nofun
  calc
    usesOf routine.program = usesOf (routine.externals.map fun name =>
        .directive s!".extern {name}") ++ usesOf Routine.shell ++ usesOf routine.lines := by
      rw [Routine.program, usesOf_append, usesOf_append]
    _ = routine.externals.map .external ++ shellUses ++ code.filterMap (commandUse? builtins) := by
      rw [usesOf_externals hnames, usesOf_shell, hroutine, usesOf_append, usesOf_append, hprologue,
        hepilogue, usesOf_emitAll hnamed hemitted, List.nil_append, List.append_nil]
    _ = _ := by rw [hexternals]

end Machine

end WhileCompiler
