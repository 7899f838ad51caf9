import Abcout.Machine.Instruction

/-!
# Abcout.Machine.Image — the memory image and the writer that fills it

An image has exactly `Image.size` bytes: the instructions, the halt sentinel, and zeros.  The code area ends at
`Image.codeSize`, so that the sentinel always fits behind it.
-/

namespace Abcout

namespace Image

/-- Number of bytes of an image. -/
def size : Nat := 32768

/-- Number of bytes that instructions may take. -/
def codeSize : Nat := 32760

/-- Number of instructions that fit. -/
def capacity : Nat := codeSize / Instruction.size

/-- Puts bytes over those of a buffer, from a position on. -/
def overwrite : Array UInt8 → Nat → List UInt8 → Array UInt8
  | buffer, _, [] => buffer
  | buffer, start, b :: bs => overwrite (buffer.setIfInBounds start b) (start + 1) bs

@[simp] theorem size_overwrite (buffer : Array UInt8) (start : Nat) (bytes : List UInt8) :
    (overwrite buffer start bytes).size = buffer.size := by
  induction bytes generalizing buffer start with
  | nil => rfl
  | cons b bs ih => simp [overwrite, ih]

/-- Bytes that fit take the place of as many others. -/
theorem toList_overwrite {buffer : Array UInt8} {start : Nat} {bytes : List UInt8}
    (fits : start + bytes.length ≤ buffer.size) :
    (overwrite buffer start bytes).toList =
      buffer.toList.take start ++ bytes ++ buffer.toList.drop (start + bytes.length) := by
  induction bytes generalizing buffer start with
  | nil => simp [overwrite]
  | cons b bs ih =>
    simp only [List.length_cons] at fits
    have bound : start < buffer.size := by omega
    have fits' : start + 1 + bs.length ≤ (buffer.setIfInBounds start b).size := by
      simp only [Array.size_setIfInBounds]
      omega
    have front : (buffer.toList.set start b).take (start + 1) = buffer.toList.take start ++ [b] := by
      rw [List.take_add_one, List.take_set_of_le (Nat.le_refl start)]
      simp [bound]
    rw [overwrite, ih fits', Array.toList_setIfInBounds, front, List.drop_set_of_lt (by omega)]
    simp [Nat.add_assoc, Nat.add_comm 1]

/-- Why instructions make no image. -/
inductive EncodeError where
  | tooManyInstructions
deriving DecidableEq, Repr

/-- The text of an encoding error. -/
def EncodeError.message : EncodeError → String
  | tooManyInstructions => "too many instructions"

/-- An image being filled: its bytes, and the address of the next instruction. -/
structure Writer where
  bytes : Array UInt8
  next : Nat

namespace Writer

/-- The writer over an image of zeros. -/
def empty : Writer := ⟨Array.replicate size 0, 0⟩

/-- Writes one instruction at the next address, unless the code area is full. -/
def push (w : Writer) (i : Instruction) : Except EncodeError Writer :=
  if codeSize ≤ w.next then .error .tooManyInstructions
  else .ok ⟨overwrite w.bytes w.next i.toBytes, w.next + Instruction.size⟩

/-- The image: what was written, with the sentinel behind it. -/
def finish (w : Writer) : List UInt8 := (overwrite w.bytes w.next Instruction.halt.toBytes).toList

end Writer

end Image

end Abcout
