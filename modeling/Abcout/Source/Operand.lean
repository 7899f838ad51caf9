import Abcout.Diagnostic
import Abcout.Text.Blank
import Abcout.Text.Decimal
import Abcout.Text.Numeral

/-!
# Abcout.Source.Operand — operands of instructions and calls

An operand is a number, a label, or a parameter `%n` of the enclosing macro.  What starts with a digit and is a
numeral must be a whole number up to `Operand.maxValue`; all other text is the name of a label.
-/

namespace Abcout

/-- One operand of an instruction or a call. -/
inductive Operand where
  | number (value : UInt16)
  | label (name : String)
  | param (index : Nat)
deriving DecidableEq, Repr

namespace Operand

/-- The largest number that may be written. -/
def maxValue : Nat := 32767

/-- The operand for a whole number. -/
def ofNat (n : Nat) : Except Cause Operand :=
  if n ≤ maxValue then .ok (.number (UInt16.ofNat n)) else .error .operandTooBig

/-- The operand for a decimal fraction, which stands for the binary number nearest to it. -/
def ofDecimal (d : Text.Decimal) : Except Cause Operand :=
  match d.nearest?.bind Text.Binary.whole? with
  | some n => ofNat n
  | none => .error .operandFractional

/-- Reads a text that starts with a digit. -/
def parseNumber (s : List Char) : Except Cause Operand :=
  if s.contains '.' then
    match Text.Decimal.parse? s with
    | some d => ofDecimal d
    | none => .ok (.label (String.ofList s))
  else if Text.isNumeral s then ofNat (Text.numeralUpTo (maxValue + 1) s)
  else .ok (.label (String.ofList s))

/-- Whether a text starts with a decimal digit. -/
def startsWithDigit : List Char → Bool
  | c :: _ => c.isDigit
  | [] => false

/-- Reads one operand, without white space around it. -/
def parse (s : List Char) : Except Cause Operand :=
  match s with
  | '%' :: index =>
    match Text.unsigned? index with
    | some i => .ok (.param i)
    | none => .error .strayPercent
  | '-' :: rest => if startsWithDigit rest then .error .operandNegative else .ok (.label (String.ofList s))
  | _ => if startsWithDigit s then parseNumber s else .ok (.label (String.ofList s))

/-- Reads what stands between two commas. -/
def parseField (s : List Char) : Except Cause Operand :=
  let field := Text.trim s
  if field.isEmpty || field.contains ' ' then .error .notSeparated else parse field

/-- Reads operands with commas between them. -/
def parseList (s : List Char) : Except Cause (List Operand) :=
  if s.isEmpty then .ok [] else (s.splitOn ',').mapM parseField

/-- An operand as source text. -/
def render : Operand → String
  | number n => n.toNat.repr
  | label name => name
  | param i => "%" ++ i.repr

/-- Operands with a comma and a space between them. -/
def renderList (ops : List Operand) : String := ", ".intercalate (ops.map render)

end Operand

end Abcout
