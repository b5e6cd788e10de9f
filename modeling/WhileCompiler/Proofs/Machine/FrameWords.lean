import WhileCompiler.Asm.Emission
import WhileCompiler.Ir.Execution
import WhileCompiler.Proofs.Machine.Execution

/-!
# The words of a frame

While the routine runs, its frame lies below a fixed address: the words of the variables, and above
them the saved base of the caller's frame and the return address.  Addresses wrap around, but words
that are less than the whole memory apart are different words.
-/

namespace WhileCompiler

open Asm Ir Semantics

namespace Machine

/-- The address of the word at a distance below a base. -/
def wordBelow (base : Int32) (distance : Int) : UInt32 :=
  (base - Int32.ofInt distance).toUInt32

theorem wordBelow_inj {base : Int32} {first second : Int} (habove : first < second + 0x100000000)
    (hbelow : second < first + 0x100000000) (heq : wordBelow base first = wordBelow base second) :
    first = second := by
  have hsum := congrArg UInt32.toInt32 heq
  rw [wordBelow, wordBelow, Int32.toInt32_toUInt32, Int32.toInt32_toUInt32, Int32.sub_eq_add_neg,
    Int32.sub_eq_add_neg, Int32.add_right_inj, Int32.neg_inj, Int32.ofInt_eq_iff_bmod_eq_toInt,
    Int32.toInt_ofInt] at hsum
  have hmod := congrArg (· % (0x100000000 : Int)) hsum
  have hfirst : first.bmod 0x100000000 % 0x100000000 = first % 0x100000000 := Int.bmod_emod
  have hsecond : second.bmod 0x100000000 % 0x100000000 = second % 0x100000000 := Int.bmod_emod
  have hboth : first % 0x100000000 = second % 0x100000000 := hfirst.symm.trans (hmod.trans hsecond)
  omega

/-- The address in `%ebp` while the routine runs. -/
def frameBase : Int32 := State.stackTop - 8

/-- The address of the word at a distance below the base of the frame. -/
def wordAt (distance : Int) : UInt32 :=
  (frameBase - Int32.ofInt distance).toUInt32

theorem wordAt_inj {first second : Int} (habove : first < second + 0x100000000)
    (hbelow : second < first + 0x100000000) (heq : wordAt first = wordAt second) :
    first = second :=
  wordBelow_inj habove hbelow heq

theorem toUInt32_frameBase : frameBase.toUInt32 = wordAt 0 := by
  decide

theorem toUInt32_frameBase_add : (frameBase + 4).toUInt32 = wordAt (-4) := by
  decide

theorem wordAt_eq_sub (size : Nat) :
    (frameBase - Int32.ofInt size - 4).toUInt32 = wordAt (size + 4) := by
  rw [wordAt, Int32.ofInt_add, ← Int32.sub_sub]
  rfl

/-- The distance of the word of a variable from the base of the frame. -/
theorem offset?_spec {frame : Frame} {name : String} {offset : Nat}
    (hoffset : frame.offset? name = some offset) :
    0 < offset ∧ offset ≤ frame.size := by
  obtain ⟨index, hindex, rfl⟩ := Option.map_eq_some_iff.1 hoffset
  obtain ⟨hlt, -, -⟩ := List.idxOf?_eq_some_iff.1 hindex
  simp only [Frame.size, wordSize]
  omega

theorem offset?_inj {frame : Frame} {first second : String} {offset : Nat}
    (hfirst : frame.offset? first = some offset) (hsecond : frame.offset? second = some offset) :
    first = second := by
  obtain ⟨index, hindex, rfl⟩ := Option.map_eq_some_iff.1 hfirst
  obtain ⟨other, hother, heq⟩ := Option.map_eq_some_iff.1 hsecond
  obtain rfl : other = index := by
    simp only [wordSize] at heq
    omega
  obtain ⟨_, hleft, -⟩ := List.idxOf?_eq_some_iff.1 hindex
  obtain ⟨_, hright, -⟩ := List.idxOf?_eq_some_iff.1 hother
  exact hleft.symm.trans hright

/-! ## States of the machine inside the routine -/

/-- The machine is inside the routine, between two commands: every variable of the frame has its
value in its word, and the input and the output are those of a console. -/
structure Framed (frame : Frame) (values : String → Int32) (console : Console) (state : State) :
    Prop where
  base : state.get .ebp = frameBase
  top : state.get .esp = frameBase - Int32.ofInt frame.size
  slots : ∀ name offset, frame.offset? name = some offset →
    state.memory.read (wordAt offset) = values name
  savedBase : state.memory.read (wordAt 0) = 0
  returnAddress : state.memory.read (wordAt (-4)) = 1
  input : state.input = console.input
  output : state.output.toList = console.output

section

variable {frame : Frame} {values : String → Int32} {console : Console} {state last : State}

theorem Framed.same (hframed : Framed frame values console state) (hsame : SameFrame state last) :
    Framed frame values console last where
  base := hsame.base.trans hframed.base
  top := hsame.top.trans hframed.top
  slots := hsame.memory ▸ hframed.slots
  savedBase := hsame.memory ▸ hframed.savedBase
  returnAddress := hsame.memory ▸ hframed.returnAddress
  input := hsame.input.trans hframed.input
  output := hsame.output ▸ hframed.output

theorem Framed.address_eq (hframed : Framed frame values console state) (offset : Nat) :
    state.address (-offset) .ebp = wordAt offset := by
  rw [State.address, hframed.base, Int32.ofInt_neg, wordAt, Int32.sub_eq_add_neg]

/-- Writing a word that lies no more than one word below the frame touches no other word of it. -/
theorem Framed.read_write_of_ne (hsize : frame.size < 0x80000000) {distance other : Int}
    (hdistance : -4 ≤ distance ∧ distance ≤ frame.size + 4)
    (hother : -4 ≤ other ∧ other ≤ frame.size) (hne : other ≠ distance) (value : Int32) :
    (state.memory.write (wordAt distance) value).read (wordAt other) =
      state.memory.read (wordAt other) := by
  rw [Memory.read_write, if_neg]
  intro heq
  exact hne (wordAt_inj (by omega) (by omega) heq)

/-- Storing the value of a variable. -/
theorem Framed.store (hframed : Framed frame values console state)
    (hsize : frame.size < 0x80000000) {name : String} {offset : Nat}
    (hoffset : frame.offset? name = some offset) (value : Int32) :
    Framed frame (fun other => if other = name then value else values other) console
      { state with memory := state.memory.write (wordAt offset) value } := by
  obtain ⟨hpos, hle⟩ := offset?_spec hoffset
  refine ⟨hframed.base, hframed.top, ?_, ?_, ?_, hframed.input, hframed.output⟩
  · intro other place hplace
    by_cases hname : other = name
    · subst hname
      obtain rfl : place = offset := Option.some.inj (hplace.symm.trans hoffset)
      rw [Memory.read_write, if_pos rfl, if_pos rfl]
    · obtain ⟨-, hplaceLe⟩ := offset?_spec hplace
      have hne : (place : Int) ≠ offset := by
        intro heq
        obtain rfl := Int.ofNat.inj heq
        exact hname (offset?_inj hplace hoffset)
      rw [if_neg hname, ← hframed.slots other place hplace]
      exact read_write_of_ne hsize (by omega) (by omega) hne value
  · rw [← hframed.savedBase]
    exact read_write_of_ne hsize (by omega) (by omega) (by omega) value
  · rw [← hframed.returnAddress]
    exact read_write_of_ne hsize (by omega) (by omega) (by omega) value

/-! ## Operands -/

theorem slot_eq {name : String} {operand : Operand} (hslot : frame.slot name = .ok operand) :
    ∃ offset, frame.offset? name = some offset ∧ operand = .memory (-offset) .ebp := by
  rw [Frame.slot] at hslot
  split at hslot
  · cases hslot
  · next offset hoffset => exact ⟨offset, hoffset, (Except.ok.inj hslot).symm⟩

theorem fits_slot (hsize : frame.size < 0x80000000) {name : String} {operand : Operand}
    (hslot : frame.slot name = .ok operand) : operand.Fits := by
  obtain ⟨offset, hoffset, rfl⟩ := slot_eq hslot
  have hle := (offset?_spec hoffset).2
  exact ⟨by omega, by omega⟩

theorem isSource_operand {value : Value} {operand : Operand}
    (hoperand : frame.operand value = .ok operand) : IsSource operand := by
  rcases value with value | name
  · obtain rfl := Except.ok.inj hoperand
    trivial
  · obtain ⟨offset, -, rfl⟩ := slot_eq hoperand
    rfl

theorem fits_operand (hsize : frame.size < 0x80000000) {value : Value} {operand : Operand}
    (hoperand : frame.operand value = .ok operand) : operand.Fits := by
  rcases value with value | name
  · obtain rfl := Except.ok.inj hoperand
    have hlower := value.le_toInt
    have hupper := value.toInt_lt
    exact ⟨by omega, by omega⟩
  · exact fits_slot hsize hoperand

/-- The operand of a value has this value. -/
theorem Framed.read_operand (hframed : Framed frame values console state) {value : Value}
    {operand : Operand} (hoperand : frame.operand value = .ok operand) :
    state.read operand = value.read values := by
  rcases value with value | name
  · obtain rfl := Except.ok.inj hoperand
    exact Int32.ofInt_toInt value
  · obtain ⟨offset, hoffset, rfl⟩ := slot_eq hoperand
    rw [State.read, hframed.address_eq]
    exact hframed.slots name offset hoffset

end

end Machine

end WhileCompiler
