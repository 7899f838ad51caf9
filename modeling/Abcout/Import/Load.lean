import Abcout.File.Origin
import Abcout.File.Tree
import Abcout.Import.Clause
import Abcout.Macro.Definition

/-!
# Abcout.Import.Load — files read together with what they import

An imported file is loaded with symbols of its own, then the selected macros are defined there and copied to the
importing file.  The files that are being loaded form a chain; importing one of them again is refused, so the files
that can still be opened get fewer at every step down.
-/

namespace Abcout

/-- One more location that is left out makes a list shorter. -/
theorem length_filter_notMem_cons_lt {xs out : List Location} {a : Location} (mem : a ∈ xs)
    (fresh : a ∉ out) : (xs.filter (· ∉ a :: out)).length < (xs.filter (· ∉ out)).length := by
  have narrower : xs.filter (· ∉ a :: out) = (xs.filter (· ∉ out)).filter (· ≠ a) := by
    rw [List.filter_filter]
    exact List.filter_congr fun x _ => by simp [not_or]
  rw [narrower]
  exact List.length_filter_lt_length_iff_exists.2 ⟨a, List.mem_filter.2 ⟨mem, by simpa using fresh⟩, by simp⟩

namespace FileTree

/-- Number of entries that are not on a chain of open files. -/
def unopened (t : FileTree) (chain : List Location) : Nat := (t.locations.filter (· ∉ chain)).length

theorem unopened_cons_lt {t : FileTree} {chain : List Location} {l : Location} (mem : l ∈ t.locations)
    (fresh : l ∉ chain) : t.unopened (l :: chain) < t.unopened chain :=
  length_filter_notMem_cons_lt mem fresh

end FileTree

namespace Import

/-- What is known while the import statements of a file are checked. -/
structure Checked where
  inDefinition : Bool := false
  seen : NameSet := ∅

/-- Takes one line into account. -/
def Checked.step (c : Checked) (line : Line) : Except Fault Checked :=
  match line.statement with
  | .opening _ _ => .ok { c with inDefinition := true }
  | .closing => .ok { c with inDefinition := false }
  | .importing => do
    ensure (!c.inDefinition) (line.fault .strayAt)
    let marked := ImportClause.keyword.isPrefixOf line.text.toList
    ensure (!(marked && c.seen.contains line.text)) (line.fault .importRepeated)
    let _ ← (ImportClause.parse line.text.toList).mapError line.fault
    return { c with seen := if marked then c.seen.insert line.text else c.seen }
  | _ => .ok c

/-- Refuses a file with an import statement that is misplaced, repeated or not well written. -/
def check (lines : List Line) : Except Fault Unit := do
  let _ ← lines.foldlM Checked.step {}

/-- The definitions that are selected, in the order of the file. -/
def select (selection : Selection) (blocks : List Block) : Except Cause (List Block) :=
  match selection with
  | .all => .ok blocks
  | .names names =>
    match names.find? fun name => !blocks.any (·.name == name) with
    | some missing => .error (.macroNotFound missing)
    | none => .ok (blocks.filter fun b => names.contains b.name)

/-- Refuses definitions of which one has the name of a macro that is there already. -/
def checkNew (macros : MacroTable) (blocks : List Block) : Except Fault Unit :=
  match blocks.find? fun b => macros.contains b.name with
  | some b => .error (b.opening.fault (.macroRedefined b.name))
  | none => .ok ()

/-- Copies the macros of the given definitions from one table to another. -/
def copy (source target : MacroTable) (blocks : List Block) : MacroTable :=
  blocks.foldl (fun t b => match source[b.name]? with
    | some m => t.insert b.name m
    | none => t) target

/-- Reads and checks the lines of a file, as far as that needs no other file. -/
def readChecked (file : String) (text : String) : Except Fault (List Line) := do
  let lines ← Line.readAll file text
  check lines
  Block.check lines
  return lines

/-- Carries out one import statement of a source from `directory`, given how files off the chain are loaded. -/
def addWith (tree : FileTree) (chain : List Location) (directory : String)
    (load : (f : tree.TextFile) → f.location ∉ chain → Origin → Except Fault (List Line × Symbols))
    (s : Symbols) (line : Line) : Except Fault Symbols := do
  let clause ← (ImportClause.parse line.text.toList).mapError line.fault
  let path := Path.join directory clause.fileName
  match tree.textFile? path with
  | none => .error (line.fault (.fileNotFound clause.fileName))
  | some f =>
    if h : f.location ∈ chain then .error (line.fault (.importCycle clause.fileName))
    else do
      let origin : Origin := ⟨(Path.parent? path).getD directory, clause.fileName⟩
      let (lines, inner) ← (load f h origin).mapError (.importedFrom line.place)
      let blocks ← (select clause.selection (Block.split lines).1).mapError line.fault
      (checkNew s.macros blocks).mapError (.importedFrom line.place)
      let inner ← (blocks.foldlM Symbols.define inner).mapError (.importedFrom line.place)
      return { s with macros := copy inner.macros s.macros blocks }

/-- Reads and checks the lines of a source and carries out its import statements in order.  `chain` are the files
that are being loaded. -/
def load (tree : FileTree) (chain : List Location) (s : Symbols) (origin : Origin) (text : String) :
    Except Fault (List Line × Symbols) := do
  let lines ← readChecked origin.name text
  let s ← (lines.filter Line.isImport).foldlM
    (addWith tree chain origin.directory fun f _ o => load tree (f.location :: chain) {} o f.text) s
  return (lines, s)
termination_by tree.unopened chain
decreasing_by exact FileTree.unopened_cons_lt f.mem ‹_›

/-- Carries out one import statement of a source from `directory`. -/
def add (tree : FileTree) (chain : List Location) (directory : String) (s : Symbols) (line : Line) :
    Except Fault Symbols :=
  addWith tree chain directory (fun f _ o => load tree (f.location :: chain) {} o f.text) s line

theorem load_eq (tree : FileTree) (chain : List Location) (s : Symbols) (origin : Origin) (text : String) :
    load tree chain s origin text = (do
      let lines ← readChecked origin.name text
      let s ← (lines.filter Line.isImport).foldlM (add tree chain origin.directory) s
      return (lines, s)) := by
  rw [load]
  rfl

/-- The paths of the files that the import statements of a source name. -/
def targets (origin : Origin) (text : String) : List String :=
  match Line.readAll origin.name text with
  | .error _ => []
  | .ok lines => (lines.filter Line.isImport).filterMap fun line =>
    match ImportClause.parse line.text.toList with
    | .error _ => none
    | .ok clause => some (Path.join origin.directory clause.fileName)

/-- The chain on which the imports of a source begin: the source itself, if it is a file. -/
def rootChain (tree : FileTree) (origin : Origin) : List Location :=
  match tree.locate origin.path with
  | .ok l => [l]
  | .error _ => []

end Import

end Abcout
