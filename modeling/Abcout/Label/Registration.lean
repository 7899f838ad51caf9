import Abcout.Macro.Block

/-!
# Abcout.Label.Registration — the labels that a program declares

Labels are registered in order until one is refused.  A label that shares its name with a macro draws a warning.
-/

namespace Abcout

namespace Label

/-- The number of the last line. -/
def lastNumber (lines : List Line) : Nat := lines.foldl (fun n line => max n line.number) 0

/-- Why a label declaration is refused, if it is. -/
def refusal? (last : Nat) (labels : LabelTable) (line : Line) (name : String) : Option Cause :=
  if name.toList.head? = some reservedInitial then some (.labelInitialReserved name)
  else if line.number = last then some (.labelAtEnd name)
  else if name = mnemonic then some .labelNameReserved
  else if !isIdentifier name.toList then some (.labelNameInvalid name)
  else if labels.contains name then some (.labelInUse name)
  else none

/-- The warning for a label with the name of a macro. -/
def sharedName (line : Line) (name : String) : Warning :=
  ⟨"label " ++ quoted name ++ " shares its name with a macro; this is not recommended", line.place⟩

/-- What registering labels has led to. -/
structure Registration where
  labels : LabelTable
  warnings : Array Warning := #[]
  /-- The first refusal; nothing is registered after it. -/
  fault : Option Fault := none

/-- Registers the label of one line, if it declares one. -/
def Registration.step (last : Nat) (isMacro : String → Bool) (r : Registration) (line : Line) : Registration :=
  match r.fault, line.statement with
  | none, .label name =>
    match refusal? last r.labels line name with
    | some cause => { r with fault := some (line.fault cause) }
    | none => {
        labels := r.labels.insert name none
        warnings := if isMacro name then r.warnings.push (sharedName line name) else r.warnings }
  | _, _ => r

/-- Registers the labels of a program.  `blocks` are the definitions in the same file. -/
def register (s : Symbols) (program : List Line) (blocks : List Block) : Registration :=
  let isMacro (name : String) : Bool := s.macros.contains name || blocks.any (·.name == name)
  program.foldl (Registration.step (lastNumber program) isMacro) { labels := s.labels }

end Label

end Abcout
