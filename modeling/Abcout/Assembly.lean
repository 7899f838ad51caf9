import Abcout.Emission
import Abcout.Import.Load
import Abcout.Label.Address
import Abcout.Label.Registration

/-!
# Abcout.Assembly — from source text to an image

A source is prepared: it is loaded with its imports, and its labels are registered.  Then its macros are defined
and its calls expanded, which gives a stream of labels and instructions; labels get addresses, and instructions are
written.  The first fault ends the run; warnings raised before it stay.
-/

namespace Abcout

/-- An assembly that has come to its end. -/
structure Run (ε : Type) where
  warnings : List Warning
  outcome : Except ε Product

/-- Why a file is not assembled: it cannot be read, or its source has a fault. -/
inductive Failure where
  | unreadable (path : String)
  | fault (fault : Fault)
deriving DecidableEq, Repr

namespace Failure

/-- The cause of a failure. -/
def cause : Failure → Cause
  | unreadable path => .fileNotFound path
  | fault f => f.cause

/-- The text of a failure. -/
def message : Failure → String
  | unreadable path => (Cause.fileNotFound path).message
  | fault f => f.message

end Failure

namespace Assembly

/-- A source that is loaded: the imported macros and the labels of its program, its own definitions, and its lines
with those of definitions blanked. -/
structure Prepared where
  symbols : Symbols
  blocks : List Block
  program : List Line

/-- Loads a source and registers its labels. -/
def prepare (tree : FileTree) (origin : Origin) (text : String) : List Warning × Except Fault Prepared :=
  match Import.load tree (Import.rootChain tree origin) {} origin text with
  | .error fault => ([], .error fault)
  | .ok (lines, s) =>
    let (blocks, program) := Block.split lines
    let r := Label.register s program blocks
    (r.warnings.toList, match r.fault with
      | some fault => .error fault
      | none => .ok ⟨{ s with labels := r.labels }, blocks, program⟩)

/-- Defines the macros of a source and expands its program. -/
def Prepared.expand (p : Prepared) : Except Fault (List Line × Symbols) := do
  let s ← p.blocks.foldlM Symbols.define p.symbols
  s.expandAll p.program

/-- The labels and instructions that a source stands for, and the symbols known at the end. -/
def stream (tree : FileTree) (origin : Origin) (text : String) : Except Fault (List Line × Symbols) := do
  (← (prepare tree origin text).2).expand

/-- Gives labels their addresses and writes the instructions. -/
def layOut (labels : LabelTable) (lines : List Line) : Except Fault Product := do
  let (labels, code) ← Label.assign labels lines
  Emission.emit labels code

/-- Assembles a source. -/
def run (tree : FileTree) (origin : Origin) (text : String) : Run Fault where
  warnings := (prepare tree origin text).1
  outcome := do
    let (lines, s) ← stream tree origin text
    layOut s.labels lines

/-- Assembles the source in a file. -/
def runFile (tree : FileTree) (path : String) : Run Failure :=
  match tree.textFile? path with
  | none => ⟨[], .error (.unreadable path)⟩
  | some f =>
    let r := run tree (.ofPath path) f.text
    ⟨r.warnings, r.outcome.mapError .fault⟩

end Assembly

end Abcout
