import Abcout.File.Path

/-!
# Abcout.File.Origin — where a source comes from
-/

namespace Abcout

/-- The directory that import statements of a source refer to, and the name that diagnostics give it. -/
structure Origin where
  directory : String := "."
  name : String := "[code]"
deriving DecidableEq, Repr

namespace Origin

/-- The origin of the source in a file. -/
def ofPath (path : String) : Origin where
  directory := match Path.parent? path with
    | some parent => if parent.isEmpty then "." else parent
    | none => "."
  name := (Path.fileName? path).getD path

/-- The path of the source. -/
def path (o : Origin) : String := Path.join o.directory o.name

end Origin

end Abcout
