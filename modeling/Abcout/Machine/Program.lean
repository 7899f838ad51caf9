import Abcout.Machine.Image

/-!
# Abcout.Machine.Program — programs, their images and their listings

A program is the list of its instructions without the sentinel.  `Program.encode` lays it out in an image,
`Program.decode` reads an image up to the first sentinel at an instruction boundary, and `Program.listing` is
the program as source text.
-/

namespace Abcout

/-- The instructions of a program, in order, without the sentinel. -/
abbrev Program := List Instruction

namespace Program

/-- The image of a program, if it fits. -/
def encode (p : Program) : Except Image.EncodeError (List UInt8) := do
  let w ← p.foldlM Image.Writer.push .empty
  return w.finish

/-- The instructions before the first sentinel.  What is left after the last whole slot is not looked at. -/
def scan : List UInt8 → Except DecodeError Program
  | a₁ :: a₀ :: b₁ :: b₀ :: c₁ :: c₀ :: rest =>
    let i : Instruction :=
      ⟨Instruction.ofBytePair a₁ a₀, Instruction.ofBytePair b₁ b₀, Instruction.ofBytePair c₁ c₀⟩
    if i.isHalt then .ok [] else (i :: ·) <$> scan rest
  | _ => .error .noHalt

/-- The program that an image holds. -/
def decode (bytes : List UInt8) : Except DecodeError Program :=
  if bytes.length = Image.size then scan bytes else .error (.imageLength bytes.length)

/-- A program as source text, one instruction on each line. -/
def listing (p : Program) : String := String.join (p.map fun i => i.render ++ "\n")

/-- The source text of an image. -/
def disassemble (bytes : List UInt8) : Except DecodeError String := listing <$> decode bytes

end Program

end Abcout
