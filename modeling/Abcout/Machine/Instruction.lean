/-!
# Abcout.Machine.Instruction — the one instruction of the machine, and its six bytes

An instruction `A, B, C` adds the byte at address `B` into the byte at address `A` and, when the sum wraps
past 255, goes on at the byte address `C`.  It is stored as three 16-bit words, the high byte of each first.
-/

namespace Abcout

/-- One instruction: destination, source, and the address taken on a carry. -/
structure Instruction where
  a : UInt16
  b : UInt16
  c : UInt16
deriving DecidableEq, Repr

/-- Why bytes are not an instruction or not an image. -/
inductive DecodeError where
  | imageLength (given : Nat)
  | instructionLength (given : Nat)
  | noHalt
deriving DecidableEq, Repr

/-- The text of a decoding error. -/
def DecodeError.message : DecodeError → String
  | imageLength n => "invalid image length: " ++ n.repr ++ " (must be 32768 bytes)"
  | instructionLength n => "invalid instruction length: " ++ n.repr ++ " (must be 6 bytes)"
  | noHalt => "no halt sentinel found"

namespace Instruction

/-- Number of bytes of an instruction. -/
def size : Nat := 6

/-- The sentinel that ends a program.  Its branch address is no multiple of `size`. -/
def halt : Instruction := ⟨0, 0, 0x7FFF⟩

/-- Whether an instruction is the sentinel. -/
def isHalt (i : Instruction) : Bool := i == halt

/-- The two bytes of a word, the high one first. -/
def wordBytes (w : UInt16) : List UInt8 := [UInt8.ofNat (w.toNat / 256), UInt8.ofNat (w.toNat % 256)]

/-- The word with the given high and low byte. -/
def ofBytePair (high low : UInt8) : UInt16 := UInt16.ofNat (256 * high.toNat + low.toNat)

/-- The six bytes of an instruction. -/
def toBytes (i : Instruction) : List UInt8 := wordBytes i.a ++ wordBytes i.b ++ wordBytes i.c

/-- The instruction that six bytes hold. -/
def ofBytes : List UInt8 → Except DecodeError Instruction
  | [a₁, a₀, b₁, b₀, c₁, c₀] => .ok ⟨ofBytePair a₁ a₀, ofBytePair b₁ b₀, ofBytePair c₁ c₀⟩
  | bytes => .error (.instructionLength bytes.length)

/-- An instruction as source text, with its branch address written out. -/
def render (i : Instruction) : String :=
  i.a.toNat.repr ++ ", " ++ i.b.toNat.repr ++ ", " ++ i.c.toNat.repr

@[simp] theorem length_wordBytes (w : UInt16) : (wordBytes w).length = 2 := rfl

@[simp] theorem length_toBytes (i : Instruction) : i.toBytes.length = size := rfl

theorem ofBytePair_bytes (w : UInt16) :
    ofBytePair (UInt8.ofNat (w.toNat / 256)) (UInt8.ofNat (w.toNat % 256)) = w := by
  have bound := w.toNat_lt
  apply UInt16.toNat.inj
  simp only [ofBytePair, UInt16.toNat_ofNat', UInt8.toNat_ofNat']
  omega

@[simp] theorem ofBytes_toBytes (i : Instruction) : ofBytes i.toBytes = .ok i := by
  simp [ofBytes, toBytes, wordBytes, ofBytePair_bytes]

@[simp] theorem isHalt_iff {i : Instruction} : i.isHalt = true ↔ i = halt := by simp [isHalt]

end Instruction

end Abcout
