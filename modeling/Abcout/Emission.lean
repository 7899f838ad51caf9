import Abcout.Machine.Program
import Abcout.Symbols

/-!
# Abcout.Emission — instructions with addresses for labels, written to an image
-/

namespace Abcout

/-- A program and its image. -/
structure Product where
  program : Program
  image : List UInt8
deriving DecidableEq

namespace Emission

/-- The number that an operand stands for. -/
def value (labels : LabelTable) (slot : Slot) : Operand → Except Cause UInt16
  | .number n => .ok n
  | .label name => match labels[name]? with
    | some (some address) => .ok address
    | _ => .error (.labelUndefined name)
  | .param _ => .error (.operandInvalid slot)

/-- The instruction at address `next`.  Without a third operand it branches to the one behind it. -/
def resolve (labels : LabelTable) (next : Nat) (ops : List Operand) : Except Cause Instruction :=
  match ops with
  | [a, b] => do
    let behind := next + Instruction.size
    ensure (behind < UInt16.size) .tooManyInstructions
    return ⟨← value labels .a a, ← value labels .b b, UInt16.ofNat behind⟩
  | [a, b, c] => do
    return ⟨← value labels .a a, ← value labels .b b, ← value labels .c c⟩
  | _ => .error (.operandCount ops.length)

/-- What is emitted so far. -/
structure Emitted where
  writer : Image.Writer := .empty
  program : Array Instruction := #[]

/-- Emits the instruction of a line, if it is one. -/
def Emitted.step (labels : LabelTable) (e : Emitted) (line : Line) : Except Fault Emitted :=
  match line.statement with
  | .instruction ops => do
    let i ← (resolve labels e.writer.next ops).mapError line.fault
    let writer ← (e.writer.push i).mapError fun _ => line.fault .tooManyInstructions
    return { writer, program := e.program.push i }
  | _ => .ok e

/-- Emits all instructions. -/
def emit (labels : LabelTable) (code : List Line) : Except Fault Product := do
  let e ← code.foldlM (Emitted.step labels) {}
  return ⟨e.program.toList, e.writer.finish⟩

end Emission

end Abcout
