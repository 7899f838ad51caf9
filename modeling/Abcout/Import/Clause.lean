import Abcout.Diagnostic
import Abcout.Text.Blank

/-!
# Abcout.Import.Clause — import statements

`@import a, b from lib` takes two macros of the file `lib.abcout`, `@import * from lib` takes all of them.
-/

namespace Abcout

/-- Which macros an import statement takes. -/
inductive Selection where
  | all
  | names (names : List String)
deriving DecidableEq, Repr

/-- An import statement: what it takes, and the file as written. -/
structure ImportClause where
  selection : Selection
  file : String
deriving DecidableEq, Repr

/-- The extension of source files. -/
def sourceExtension : String := "abcout"

namespace ImportClause

/-- The name of the imported file. -/
def fileName (c : ImportClause) : String := c.file ++ "." ++ sourceExtension

/-- Whether a word is not empty and has no comma. -/
def isPlain (word : List Char) : Bool := !word.isEmpty && !word.contains ','

/-- Whether each word but the last has one comma, at its end, and the last has none. -/
def isSeparated (words : List (List Char)) : Bool :=
  match words.reverse with
  | [] => true
  | last :: before => isPlain last && before.all fun w => w.getLast? == some ',' && isPlain w.dropLast

/-- Whether what follows the keyword asks for everything. -/
def asksForAll (rest : List Char) : Bool :=
  match "* from ".toList.isPrefixOf? rest with
  | some file => !file.contains '*'
  | none => false

/-- The selection that names, each with its comma, stand for. -/
def selectionOf (rest : List Char) (names : List (List Char)) : Selection :=
  if asksForAll rest then .all
  else .names (names.map fun w => String.ofList (Text.dropEndWhile (· == ',') w))

/-- Reads what follows the keyword, given its words from the last to the first. -/
def parseWords (rest : List Char) : List (List Char) → Except Cause ImportClause
  | file :: before => do
    ensure (file != "from".toList) .importFileMissing
    match before with
    | word :: namesReversed =>
      let names := namesReversed.reverse
      ensure (word == "from".toList) .importMalformed
      ensure (!rest.contains '*' || asksForAll rest) .importMalformed
      ensure (isSeparated names) .importNotSeparated
      ensure (!file.contains ',' && !names.isEmpty) .importMalformed
      return ⟨selectionOf rest names, String.ofList file⟩
    | [] => .error .importMalformed
  | [] => .error .importMalformed

/-- The keyword of an import statement and the space behind it. -/
def keyword : List Char := "@import ".toList

/-- Reads an import statement. -/
def parse (text : List Char) : Except Cause ImportClause :=
  match keyword.isPrefixOf? text with
  | none => .error .strayAt
  | some rest => parseWords rest (rest.splitOn ' ').reverse

end ImportClause

end Abcout
