import Abcout.Source.Name
import Abcout.Source.Operand

/-!
# Abcout.Source.Statement — what a line of source says

`Statement.parse` reads a line whose comment is gone and whose words stand one space apart; `Statement.render`
writes the statements that expansion produces.
-/

namespace Abcout

/-- What one line says. -/
inductive Statement where
  | blank
  | label (name : String)
  /-- The first line of a macro definition; the number of parameters is absent when it is not well written. -/
  | opening (name : String) (params : Option Nat)
  /-- The last line of a macro definition. -/
  | closing
  /-- Any other line that starts with a percent sign and no digit. -/
  | directive
  /-- A line that starts with an at sign. -/
  | importing
  | instruction (ops : List Operand)
  | call (name : String) (args : List Operand)
deriving DecidableEq, Repr

namespace Statement

/-- The first line of a macro definition, from its words after the percent sign. -/
def ofOpeningWords : List (List Char) → Statement
  | [_, name, count] => .opening (String.ofList name) (Text.unsigned? count)
  | _ :: name :: _ => .opening (String.ofList name) none
  | _ => .opening "" none

/-- Reads what follows a percent sign at the start of a line. -/
def parsePercent (rest : List Char) : Except Cause Statement :=
  if rest = "endmacro".toList then .ok .closing
  else if rest = "macro".toList || "macro ".toList.isPrefixOf rest then .ok (ofOpeningWords (rest.splitOn ' '))
  else if Operand.startsWithDigit rest then .instruction <$> Operand.parseList ('%' :: rest)
  else .ok .directive

/-- Whether a character may stand in the first word of a call. -/
def inFirstWord (c : Char) : Bool := c != ' ' && c != ','

/-- Reads a call if the line starts with a name and no comma follows it, and an instruction otherwise. -/
def parseCode (text : List Char) : Except Cause Statement :=
  let name := text.takeWhile inFirstWord
  let rest := text.dropWhile inFirstWord
  if isIdentifier name && rest.head? != some ',' then
    .call (String.ofList name) <$> Operand.parseList (rest.dropWhile Text.isBlank)
  else .instruction <$> Operand.parseList text

/-- Reads one clean line. -/
def parse (text : List Char) : Except Cause Statement :=
  if text.isEmpty then .ok .blank
  else if text.getLast? = some ':' then .ok (.label (String.ofList text.dropLast))
  else match text with
    | '@' :: _ => .ok .importing
    | '%' :: rest => parsePercent rest
    | _ => parseCode text

/-- The text of the statements that expansion produces. -/
def render : Statement → String
  | label name => name ++ ":"
  | instruction ops => Operand.renderList ops
  | call name [] => name
  | call name args => name ++ " " ++ Operand.renderList args
  | _ => ""

end Statement

end Abcout
