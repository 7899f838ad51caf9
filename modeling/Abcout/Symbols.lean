import Std.Data.ExtTreeMap
import Std.Data.ExtTreeSet
import Abcout.Source.Line

/-!
# Abcout.Symbols — the labels and macros that an assembly knows

Tables are ordered by name and are equal as soon as their contents are.
-/

namespace Abcout

/-- A set of names, in order. -/
abbrev NameSet := Std.ExtTreeSet String

/-- The labels of the program, with their addresses once those are known. -/
abbrev LabelTable := Std.ExtTreeMap String (Option UInt16)

/-- A defined macro. -/
structure Macro where
  /-- Number of parameters. -/
  params : Nat
  /-- Labels and instructions only: calls were expanded when the macro was defined. -/
  body : List Line
  /-- The macros that the definition calls. -/
  dependencies : NameSet
  /-- The labels that the body declares. -/
  locals : NameSet
  /-- Number of expansions, within other definitions and as a dependency too. -/
  calls : Nat
  /-- Number of expansions by calls of the program. -/
  topLevelCalls : Nat
deriving DecidableEq

/-- The defined macros. -/
abbrev MacroTable := Std.ExtTreeMap String Macro

/-- The labels and macros known so far. -/
structure Symbols where
  labels : LabelTable := ∅
  macros : MacroTable := ∅
deriving DecidableEq

/-- Adds labels whose addresses are not yet known. -/
def LabelTable.declare (t : LabelTable) (names : List String) : LabelTable :=
  names.foldl (fun t name => t.insert name none) t

/-- Counts one more expansion. -/
def Macro.counted (m : Macro) : Macro := { m with calls := m.calls + 1 }

/-- Counts one more expansion by a call of the program. -/
def Macro.countedTopLevel (m : Macro) : Macro :=
  { m with calls := m.calls + 1, topLevelCalls := m.topLevelCalls + 1 }

end Abcout
