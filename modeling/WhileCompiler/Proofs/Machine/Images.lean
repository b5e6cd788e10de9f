import WhileCompiler.Proofs.Machine.ListedRoutines

/-!
# Listings in the memory of the machine

A listing that was generated from standalone code loads as the image of this code: the instructions
of every command are where the ones before it end, and every label of the code stands for the
command that follows it.
-/

namespace WhileCompiler

open Asm Ir Text

namespace Machine

/-- A command whose lines can be read. -/
structure IsReadable (command : Command) : Prop where
  label : ∀ name ∈ command.label?, isIdentifier name.toList = true
  target : ∀ target ∈ command.target?, isIdentifier target.toList = true
  standard : ∀ destination function arguments,
    command = .call destination function arguments → IsStandardCall function arguments

theorem IsReadable.isPrintable {command : Command} (hcommand : IsReadable command) :
    IsPrintable .standard command where
  label := hcommand.label
  target := hcommand.target
  external destination function arguments hcall hrecipe :=
    isExternalCall_of_isStandardCall (hcommand.standard destination function arguments hcall)
      hrecipe

section

variable {code : List Command} {routine : Routine} {emitted : List Line}

theorem isReadable_of_mem (hcode : IsStandalone code) {command : Command} (hmem : command ∈ code) :
    IsReadable command := by
  refine ⟨fun name hname => ?_, fun target htarget => ?_, ?_⟩
  · exact hcode.identifier name (List.mem_filterMap.2 ⟨command, hmem, hname⟩)
  · exact hcode.identifier target (hcode.targets command hmem target htarget)
  · rintro destination function arguments rfl
    exact hcode.standard destination function arguments hmem

/-- A routine whose lines were emitted for code. -/
structure IsRoutine (code : List Command) (routine : Routine) (emitted : List Line) : Prop where
  standalone : IsStandalone code
  emits : emitAll .standard (Frame.ofCommands code) code = .ok emitted
  lines : routine.lines = (prologue (Frame.ofCommands code)).map .instruction ++ emitted ++
    epilogue.map .instruction

theorem IsRoutine.isListed (hroutine : IsRoutine code routine emitted) :
    IsListed .standard code routine emitted where
  printable _ hmem := (isReadable_of_mem hroutine.standalone hmem).isPrintable
  emits := hroutine.emits
  lines := hroutine.lines

theorem IsRoutine.program_eq (hroutine : IsRoutine code routine emitted) :
    routine.program = front routine ++ (prologue (Frame.ofCommands code)).map .instruction ++
      emitted ++ epilogue.map .instruction :=
  hroutine.isListed.program_eq

theorem IsRoutine.readable (hroutine : IsRoutine code routine emitted) :
    (∀ line ∈ routine.program, line.IsReadable) ∧
      labelsOf routine.program = "_start" :: "main" :: labels code :=
  hroutine.isListed.readable

theorem not_mem_shellSymbols (hcode : IsStandalone code) :
    ∀ name ∈ labels code, name ∉ shellSymbols := by
  intro name hname hreserved
  apply hcode.unreserved name hname
  simp only [shellSymbols, List.mem_cons, List.not_mem_nil, or_false] at hreserved ⊢
  rcases hreserved with rfl | rfl
  · exact .inr (.inl rfl)
  · exact .inl rfl

/-- The host's routines are not labels of the program. -/
theorem IsRoutine.position?_host (hroutine : IsRoutine code routine emitted) {name : String}
    (hname : name = "printInt" ∨ name = "readInt") : (loaded routine).position? name = none := by
  apply hroutine.isListed.position?_of_not_mem
  · rcases hname with rfl | rfl <;> decide
  · intro hmem
    exact hroutine.standalone.unreserved name hmem (by rcases hname with rfl | rfl <;> decide)

theorem IsRoutine.position?_start (hroutine : IsRoutine code routine emitted) :
    (loaded routine).position? "_start" = some 0 :=
  hroutine.isListed.position?_start fun hmem =>
    not_mem_shellSymbols hroutine.standalone _ hmem (by decide)

theorem IsRoutine.hasShell (hroutine : IsRoutine code routine emitted) :
    HasShell (loaded routine) :=
  hroutine.isListed.hasShell (not_mem_shellSymbols hroutine.standalone)

/-- A routine in memory is the image of its code. -/
def IsRoutine.image (hroutine : IsRoutine code routine emitted)
    (hsize : (Frame.ofCommands code).size < 0x80000000) : Image code (loaded routine) where
  address := startOf .standard code
  start := rfl
  emitted := hroutine.isListed.loaded_command hsize
  labelled := hroutine.isListed.position?_command hroutine.standalone.nodup
  shell := hroutine.hasShell
  opening := hroutine.isListed.loaded_prologue hsize
  closing := hroutine.isListed.loaded_epilogue
  print := hroutine.position?_host (.inl rfl)
  read := hroutine.position?_host (.inr rfl)

end

end Machine

end WhileCompiler
