/-!
# Abcout.Diagnostic — what can go wrong, where, and how it is told

A `Cause` is one reason to refuse a source; a `Fault` is a cause at a line of a file, with the import statements
that led to that file.  A `Warning` never stops an assembly.
-/

namespace Abcout

/-- The operand positions of an instruction. -/
inductive Slot where
  | a
  | b
  | c
deriving DecidableEq, Repr

/-- The letter that names a position. -/
def Slot.letter : Slot → String
  | a => "A"
  | b => "B"
  | c => "C"

/-- The reasons to refuse a source. -/
inductive Cause where
  | hexLiteralMalformed
  | fileNotFound (name : String)
  | strayAt
  | importFileMissing
  | importMalformed
  | importNotSeparated
  | importRepeated
  | macroNotFound (name : String)
  | importCycle (file : String)
  | strayPercent
  | openingUnmatched
  | closingUnmatched
  | definitionNested
  | openingRepeated
  | macroNameReserved
  | macroNameInvalid (name : String)
  | macroRedefined (name : String)
  | paramCountInvalid
  | macroCallsItself (name : String)
  | macroUndefined (name : String)
  | paramOutOfRange
  | paramOutsideMacro
  | expansionInvalid
  | labelInitialReserved (name : String)
  | labelNameReserved
  | labelAtEnd (name : String)
  | labelNameInvalid (name : String)
  | labelInUse (name : String)
  | labelUndefined (name : String)
  | notSeparated
  | operandCount (given : Nat)
  | operandTooBig
  | operandNegative
  | operandFractional
  | operandInvalid (slot : Slot)
  | tooManyInstructions
deriving DecidableEq, Repr

/-- A name between double quotes. -/
def quoted (name : String) : String := "\"" ++ name ++ "\""

/-- The text of a cause. -/
def Cause.message : Cause → String
  | hexLiteralMalformed => "invalid hex literal"
  | fileNotFound name => "file " ++ quoted name ++ " not found"
  | strayAt => "invalid use of @"
  | importFileMissing => "a file to import from must be given"
  | importMalformed => "malformed import statement"
  | importNotSeparated => "macros to import must be comma-separated"
  | importRepeated => "an identical import statement already exists"
  | macroNotFound name => "macro " ++ quoted name ++ " not found"
  | importCycle file => "circular import of file " ++ quoted file
  | strayPercent => "invalid use of %"
  | openingUnmatched => "unmatched macro opening statement"
  | closingUnmatched => "unmatched macro closing statement"
  | definitionNested => "macros cannot define other macros"
  | openingRepeated => "an identical macro opening statement already exists"
  | macroNameReserved => "\"abcout\" cannot be used as a macro name"
  | macroNameInvalid name => "invalid macro name " ++ quoted name
  | macroRedefined name => "macro " ++ quoted name ++ " already defined"
  | paramCountInvalid => "macro parameter count missing or invalid"
  | macroCallsItself name => "macro " ++ quoted name ++ " cannot call itself"
  | macroUndefined name => "macro " ++ quoted name ++ " is undefined"
  | paramOutOfRange => "parameter out of range"
  | paramOutsideMacro => "parameters cannot be used at the top level"
  | expansionInvalid => "parameter rendered invalid after expansion"
  | labelInitialReserved name => "label " ++ quoted name ++ " begins with the reserved prefix \"M\""
  | labelNameReserved => "\"abcout\" cannot be used as a label name"
  | labelAtEnd name => "label " ++ quoted name ++ " must be followed by an instruction"
  | labelNameInvalid name => "invalid label name " ++ quoted name
  | labelInUse name => "label " ++ quoted name ++ " already in use"
  | labelUndefined name => "label " ++ quoted name ++ " is undefined"
  | notSeparated => "arguments must be comma-separated"
  | operandCount n => "wrong number of arguments (" ++ n.repr ++ " given)"
  | operandTooBig => "argument too big"
  | operandNegative => "argument cannot be negative"
  | operandFractional => "argument must be a whole number"
  | operandInvalid slot => "invalid value for argument " ++ slot.letter
  | tooManyInstructions => "too many instructions"

/-- A line of a file. -/
structure Place where
  file : String
  line : Nat
deriving DecidableEq, Repr

/-- The text of a place. -/
def Place.render (p : Place) : String := p.file ++ ":" ++ p.line.repr

/-- A cause at a place, with the places of the import statements that led there, outermost first. -/
structure Fault where
  cause : Cause
  place : Place
  trace : List Place := []
deriving DecidableEq, Repr

namespace Fault

/-- The text of a fault: cause and place, then the import statements from the inside out. -/
def message (f : Fault) : String :=
  f.cause.message ++ "\n  at " ++ f.place.render ++
    String.join (f.trace.reverse.map fun p => "\n  imported from " ++ p.render)

/-- The fault as seen from the file whose import statement led to it. -/
def importedFrom (place : Place) (f : Fault) : Fault := { f with trace := place :: f.trace }

end Fault

/-- A remark on a place that does not stop the assembly. -/
structure Warning where
  text : String
  place : Place
deriving DecidableEq, Repr

/-- The text of a warning with its place. -/
def Warning.message (w : Warning) : String := w.text ++ "\n  at " ++ w.place.render

/-- Passes when the condition holds, and fails with the given error otherwise. -/
def ensure {ε : Type} (condition : Bool) (error : ε) : Except ε Unit :=
  if condition then .ok () else .error error

@[simp] theorem ensure_eq_ok_iff {ε : Type} {condition : Bool} {error : ε} :
    ensure condition error = .ok () ↔ condition = true := by
  cases condition <;> simp [ensure]

end Abcout
