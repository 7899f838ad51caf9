import Abcout.Source.Clean
import Abcout.Source.Statement
import Abcout.Text.Lines

/-!
# Abcout.Source.Line — the lines of a source file

`Line.readAll` cleans and reads every line of a file, and stops at the first that cannot be read.
-/

namespace Abcout

/-- A line of a source file, cleaned and read, or a line made by expansion at such a line. -/
structure Line where
  text : String
  number : Nat
  file : String
  statement : Statement
deriving DecidableEq, Repr

namespace Line

/-- Where a line stands. -/
def place (l : Line) : Place := ⟨l.file, l.number⟩

/-- A fault at a line. -/
def fault (l : Line) (cause : Cause) : Fault := { cause, place := l.place }

/-- The line without what it says. -/
def blanked (l : Line) : Line := { l with text := "", statement := .blank }

/-- A line that expansion makes at the place of a call. -/
def expanded (site : Line) (s : Statement) : Line :=
  { text := s.render, number := site.number, file := site.file, statement := s }

/-- Whether a line says nothing. -/
def isBlank (l : Line) : Bool := l.statement == .blank

/-- Whether a line is an import statement. -/
def isImport (l : Line) : Bool := l.statement == .importing

/-- Reads one line of a file. -/
def read (file : String) (number : Nat) (raw : List Char) : Except Fault Line :=
  Except.mapError (fun cause => { cause, place := ⟨file, number⟩ }) do
    let text ← Source.clean raw
    let statement ← Statement.parse text
    return { text := String.ofList text, number, file, statement }

/-- Reads all lines of a file, numbered from one. -/
def readAll (file : String) (text : String) : Except Fault (List Line) :=
  ((Text.lines text.toList).zipIdx 1).mapM fun (raw, number) => read file number raw

/-- The labels that lines declare, in order. -/
def declared (lines : List Line) : List String :=
  lines.filterMap fun l => match l.statement with
    | .label name => some name
    | _ => none

end Line

end Abcout
