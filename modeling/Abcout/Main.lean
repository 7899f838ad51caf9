import Abcout.CommandLine

/-!
# Abcout.Main — the command line on the files of the machine

The files that a command can ask for are its arguments and what they import.  They are read into a tree, the
command runs on that tree, and the files it has changed are written back.
-/

namespace Abcout.CommandLine

/-- The tree with a directory wherever a path passes through one. -/
def withDirectories (files : FileTree) (path : String) : FileTree :=
  let parts := path.toList.splitOn '/'
  ((List.range parts.length).drop 1).foldl (fun t n =>
    match Location.ofPath? (String.ofList (['/'].intercalate (parts.take n))) files.workingDirectory with
    | some l => if t.contains l then t else t.insert l .directory
    | none => t) files

/-- What stands at a path, if it can be read. -/
def readEntry? (path : String) : IO (Option Entry) := do
  try
    return some (.file (← IO.FS.readBinFile path).toList)
  catch
    | .inappropriateType .. => return some .directory
    | _ => return none

/-- Adds what stands at a path to a tree, and the files that it imports. -/
partial def gather (files : FileTree) (path : String) : IO FileTree := do
  let some l := Location.ofPath? path files.workingDirectory | return files
  if (files.get? l).isSome then return files
  let some entry ← readEntry? path | return files
  let files := (withDirectories files path).insert l entry
  match entry with
  | .directory => return files
  | .file bytes =>
    match String.fromUTF8? ⟨bytes.toArray⟩ with
    | some text => (Import.targets (.ofPath path) text).foldlM gather files
    | none => return files

/-- Writes an entry that a command has left. -/
def writeEntry (entry : Location × Entry) : IO Unit :=
  match entry with
  | (l, .file bytes) => IO.FS.writeBinFile ("/" ++ "/".intercalate l) ⟨bytes.toArray⟩
  | (_, .directory) => return ()

/-- The text for a file that cannot be written. -/
def writeErrorText : IO.Error → String
  | .noFileOrDirectory .. => FileError.notFound.message
  | .inappropriateType .. => FileError.isDirectory.message
  | e => toString e

/-- Runs a command on the files of the machine. -/
def execute (args : List String) : IO UInt32 := do
  let directory := (Location.ofPath? (← IO.currentDir).toString).getD []
  let files ← args.foldlM gather { workingDirectory := directory }
  let output := outputPath ((args.filter (!isVerbosity ·)).drop 2)
  let files := withDirectories files output
  let ending := run files args
  for w in ending.warnings do
    IO.eprintln (" WARN " ++ w.message)
  try
    (ending.files.entries.filter (!files.entries.contains ·)).forM writeEntry
  catch e =>
    IO.eprintln ("error: cannot write '" ++ output ++ "': " ++ writeErrorText e)
    return 1
  for line in ending.errors do
    IO.eprintln line
  IO.print ending.output
  return UInt32.ofNat ending.code

end Abcout.CommandLine

/-- Runs the command that the arguments ask for. -/
def main (args : List String) : IO UInt32 := Abcout.CommandLine.execute args
