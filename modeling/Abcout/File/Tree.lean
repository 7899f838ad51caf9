import Abcout.File.Path

/-!
# Abcout.File.Tree — files and directories

A `Location` is a path with nothing to resolve in it: the names from the root down.  `FileTree.locate` resolves a
path part by part, from the root or from the working directory, and fails as soon as a part cannot be entered.  A
tree has no links, so that every file has one location.
-/

namespace Abcout

/-- The names that lead from the root to a file or directory. -/
abbrev Location := List String

namespace Location

/-- The working directory where nothing else is said. -/
def home : Location := ["home"]

/-- Where a path starts: at the root, or in the directory that it is seen from. -/
def base (directory : Location) (path : String) : Location := if Path.isAbsolute path then [] else directory

/-- The location that a path spells out as it is seen from a directory, without looking anything up.  The empty
path spells none, and the root is above itself. -/
def ofPath? (path : String) (directory : Location := home) : Option Location :=
  if path.isEmpty then none
  else some ((path.toList.splitOn '/').foldl (fun l part =>
    if Path.isIdle part then l
    else if part = ['.', '.'] then l.dropLast
    else l ++ [String.ofList part]) (base directory path))

end Location

/-- What stands at a location. -/
inductive Entry where
  | file (bytes : List UInt8)
  | directory
deriving DecidableEq

/-- Files and directories by location, and the directory that relative paths start from.  The directories above an
entry need no entry, nor do the working directory and those above it. -/
structure FileTree where
  entries : List (Location × Entry) := []
  workingDirectory : Location := Location.home
deriving DecidableEq

/-- Why a file cannot be read or written. -/
inductive FileError where
  | notFound
  | notDirectory
  | isDirectory
  | nameTooLong
deriving DecidableEq, Repr

/-- The operating system's text for a file error. -/
def FileError.message : FileError → String
  | notFound => "No such file or directory (os error 2)"
  | notDirectory => "Not a directory (os error 20)"
  | isDirectory => "Is a directory (os error 21)"
  | nameTooLong => "File name too long (os error 36)"

namespace FileTree

/-- The largest number of bytes of a name. -/
def maxNameBytes : Nat := 255

/-- The largest number of bytes of a path. -/
def maxPathBytes : Nat := 4095

/-- The locations that have an entry. -/
def locations (t : FileTree) : List Location := t.entries.map Prod.fst

/-- The entry at a location.  The working directory and those above it are directories in any case. -/
def get? (t : FileTree) (l : Location) : Option Entry :=
  if l.isPrefixOf t.workingDirectory then some .directory else t.entries.lookup l

/-- Puts an entry at a location, in place of what stands there. -/
def insert (t : FileTree) (l : Location) (e : Entry) : FileTree :=
  { t with entries := (l, e) :: t.entries.filter (·.1 != l) }

/-- Whether a location is a directory: its entry says so, or it is above an entry. -/
def isDirectory (t : FileTree) (l : Location) : Bool :=
  match t.get? l with
  | some .directory => true
  | some (.file _) => false
  | none => t.entries.any fun (m, _) => l.isPrefixOf m

/-- Whether something stands at a location. -/
def contains (t : FileTree) (l : Location) : Bool := (t.get? l).isSome || t.isDirectory l

/-- Goes from a location to what one part of a path leads to.  The root is above itself. -/
def enter (t : FileTree) (l : Location) (part : String) : Except FileError Location :=
  if !t.isDirectory l then .error .notDirectory
  else if part = "" || part = "." then .ok l
  else if part = ".." then .ok l.dropLast
  else if maxNameBytes < part.utf8ByteSize then .error .nameTooLong
  else if t.contains (l ++ [part]) then .ok (l ++ [part])
  else .error .notFound

/-- The parts of a path that can be looked up.  The first part of one that starts at the root is empty. -/
def parts (path : String) : Except FileError (List String) :=
  if path.isEmpty || path.toList.contains '\x00' then .error .notFound
  else if maxPathBytes < path.utf8ByteSize then .error .nameTooLong
  else .ok ((path.toList.splitOn '/').map String.ofList)

/-- The location that a path leads to. -/
def locate (t : FileTree) (path : String) : Except FileError Location := do
  (← parts path).foldlM t.enter (Location.base t.workingDirectory path)

/-- The bytes of the file at a path. -/
def read (t : FileTree) (path : String) : Except FileError (List UInt8) := do
  match t.get? (← t.locate path) with
  | some (.file bytes) => .ok bytes
  | _ => .error .isDirectory

/-- The location of the file to be written at a path: a name in a directory, with nothing behind it. -/
def locateNew (t : FileTree) (path : String) : Except FileError Location := do
  let written ← parts path
  match written.reverse.dropWhile (· == "") with
  | [] => .error .isDirectory
  | name :: above =>
    let directory ← above.reverse.foldlM t.enter (Location.base t.workingDirectory path)
    if !t.isDirectory directory then .error .notDirectory
    else if name = "." || name = ".." || written.getLast? = some "" then .error .isDirectory
    else if maxNameBytes < name.utf8ByteSize then .error .nameTooLong
    else if t.isDirectory (directory ++ [name]) then .error .isDirectory
    else .ok (directory ++ [name])

/-- The tree with the given bytes written to a path.  A write is taken to be all or nothing: once the file can be
opened, all of the bytes get there. -/
def write (t : FileTree) (path : String) (bytes : List UInt8) : Except FileError FileTree := do
  return t.insert (← t.locateNew path) (.file bytes)

/-- A text file of a tree. -/
structure TextFile (t : FileTree) where
  location : Location
  text : String
  mem : location ∈ t.locations

theorem mem_locations_of_get? {t : FileTree} {l : Location} {bytes : List UInt8}
    (h : t.get? l = some (.file bytes)) : l ∈ t.locations := by
  unfold get? at h
  split at h
  · cases h
  · obtain ⟨before, after, split, _⟩ := List.lookup_eq_some_iff.1 h
    simp [locations, split]

/-- The text file at a path, if there is a file and its bytes are UTF-8. -/
def textFile? (t : FileTree) (path : String) : Option (TextFile t) :=
  match t.locate path with
  | .error _ => none
  | .ok l =>
    match h : t.get? l with
    | some (.file bytes) => (String.fromUTF8? ⟨bytes.toArray⟩).map (⟨l, ·, mem_locations_of_get? h⟩)
    | _ => none

end FileTree

end Abcout
