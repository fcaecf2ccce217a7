import FrameLang.Instr

/-!
# Frames

A frame is a register file of fixed size, with all slots zero at first. Reading a slot that does not
exist gives zero, and writing one does nothing.
-/

namespace FrameLang

/-- A register file. -/
structure Frame where
  slots : Vector Int32 registerFileSize
deriving DecidableEq

namespace Frame

/-- The frame with all slots zero. -/
def zero : Frame := ⟨Vector.replicate registerFileSize 0⟩

/-- The value of a slot. -/
def read (f : Frame) (addr : UInt32) : Int32 :=
  f.slots[addr.toNat]?.getD 0

/-- The frame with a new value in a slot. -/
def write (f : Frame) (addr : UInt32) (value : Int32) : Frame :=
  ⟨f.slots.setIfInBounds addr.toNat value⟩

@[simp] theorem read_zero (addr : UInt32) : zero.read addr = 0 := by
  simp only [read, zero, Vector.getElem?_replicate]
  split <;> rfl

theorem read_write (f : Frame) (a b : UInt32) (value : Int32) (h : a.toNat < registerFileSize) :
    (f.write a value).read b = if a = b then value else f.read b := by
  by_cases hab : a = b
  · subst hab
    simp [read, write, h]
  · have : a.toNat ≠ b.toNat := fun e => hab (UInt32.toNat_inj.1 e)
    simp [read, write, hab, this]

end Frame

end FrameLang
