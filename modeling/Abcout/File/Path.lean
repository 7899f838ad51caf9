import Abcout.Text.Blank

/-!
# Abcout.File.Path — paths as text

A path is an optional head (a slash, or a dot that begins a relative path) and parts between slashes.  Empty parts
and dots after the head carry no meaning.
-/

namespace Abcout.Path

/-- The head of a path and the parts behind it. -/
def split (p : List Char) : List Char × List (List Char) :=
  match p with
  | '/' :: rest => (['/'], rest.splitOn '/')
  | ['.'] => (['.'], [])
  | '.' :: '/' :: rest => (['.'], ('/' :: rest).splitOn '/')
  | _ => ([], p.splitOn '/')

/-- Whether a part carries no meaning. -/
def isIdle (part : List Char) : Bool := part.isEmpty || part == ['.']

/-- The path without its last meaningful part and what surrounds that.  The root and the empty path have none. -/
def parent? (path : String) : Option String :=
  let (head, parts) := split path.toList
  match parts.reverse.dropWhile isIdle with
  | _ :: before => some (String.ofList (head ++ ['/'].intercalate (before.dropWhile isIdle).reverse))
  | [] => if head = ['.'] then some "" else none

/-- The last meaningful part, if it is a name. -/
def fileName? (path : String) : Option String :=
  match (split path.toList).2.reverse.dropWhile isIdle with
  | last :: _ => if last = ['.', '.'] then none else some (String.ofList last)
  | [] => none

/-- What follows the last dot of the file name, if something stands before it. -/
def extension? (path : String) : Option String :=
  match (fileName? path).map (·.toList.splitOn '.') with
  | some [[], _] => none
  | some parts => if parts.length < 2 then none else some (String.ofList (parts.getLastD []))
  | none => none

/-- Whether a path starts at the root. -/
def isAbsolute (path : String) : Bool := path.toList.head? == some '/'

/-- The second path as seen from the directory that the first names. -/
def join (directory path : String) : String :=
  if isAbsolute path || directory.isEmpty then path
  else if directory.toList.getLast? == some '/' then directory ++ path
  else directory ++ "/" ++ path

end Abcout.Path
