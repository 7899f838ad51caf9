import Abcout.Machine.Instruction
import Abcout.Symbols

/-!
# Abcout.Label.Address — addresses for labels

A label stands for the address of the instruction behind it: the size of an instruction times the number of lines
kept before it.
-/

namespace Abcout

namespace Label

/-- Addresses given so far, and the lines kept. -/
structure Layout where
  labels : LabelTable
  code : Array Line := #[]

/-- Keeps a line, or gives its label the address reached and drops it. -/
def Layout.step (l : Layout) (line : Line) : Except Fault Layout :=
  match line.statement with
  | .label name =>
    let address := l.code.size * Instruction.size
    if address < UInt16.size then .ok { l with labels := l.labels.insert name (some (UInt16.ofNat address)) }
    else .error (line.fault .tooManyInstructions)
  | _ => .ok { l with code := l.code.push line }

/-- Gives every label its address; what is left are the other lines. -/
def assign (labels : LabelTable) (lines : List Line) : Except Fault (LabelTable × List Line) := do
  let l ← lines.foldlM Layout.step { labels }
  return (l.labels, l.code.toList)

end Label

end Abcout
