import Std.Data.TreeMap

/-!
# Memory

Words of memory under their addresses.  Every word is zero until it is written, and words at
different addresses do not overlap.
-/

namespace WhileCompiler.Machine

structure Memory where
  words : Std.TreeMap UInt32 Int32

namespace Memory

def zero : Memory := ⟨∅⟩

def read (memory : Memory) (address : UInt32) : Int32 :=
  memory.words.getD address 0

def write (memory : Memory) (address : UInt32) (value : Int32) : Memory :=
  ⟨memory.words.insert address value⟩

@[simp] theorem read_zero (address : UInt32) : zero.read address = 0 := by
  simp [zero, read]

theorem read_write (memory : Memory) (address other : UInt32) (value : Int32) :
    (memory.write address value).read other =
      if other = address then value else memory.read other := by
  by_cases haddress : address = other
  · simp [read, write, haddress]
  · simp [read, write, Std.TreeMap.getD_insert, haddress, Ne.symm haddress]

end Memory

end WhileCompiler.Machine
