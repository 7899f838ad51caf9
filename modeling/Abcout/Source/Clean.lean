import Abcout.Diagnostic
import Abcout.Source.Name
import Abcout.Text.Blank
import Abcout.Text.Numeral

/-!
# Abcout.Source.Clean — from a line as written to the text that is read

A line is cleaned in four steps: the comment goes, hexadecimal literals become decimal, words are put one space
apart, and the mnemonic at the front goes.
-/

namespace Abcout.Source

/-- What stands before the comment, behind the text `done` (reversed).  A backslash keeps a semicolon. -/
def takeCodeAfter (done : List Char) : List Char → List Char
  | '\\' :: ';' :: rest => takeCodeAfter (';' :: done) rest
  | ';' :: _ => done.reverse
  | c :: rest => takeCodeAfter (c :: done) rest
  | [] => done.reverse

/-- What stands before the comment. -/
def takeCode (s : List Char) : List Char := takeCodeAfter [] s

/-- Writes `0x` for every dollar sign. -/
def spellDollar (s : List Char) : List Char := s.flatMap fun c => if c == '$' then ['0', 'x'] else [c]

/-- Whether a character ends a word: white space or a comma. -/
def isDelimiter (c : Char) : Bool := Text.isBlank c || c == ','

/-- A word, or one character between words. -/
inductive Chunk where
  | word (chars : List Char)
  | delimiter (char : Char)
deriving DecidableEq, Repr

/-- Puts one more character in front of chunks. -/
def Chunk.cons (c : Char) (chunks : List Chunk) : List Chunk :=
  if isDelimiter c then .delimiter c :: chunks
  else match chunks with
    | .word w :: rest => .word (c :: w) :: rest
    | _ => .word [c] :: chunks

/-- The longest words of a text and the delimiters between them. -/
def chunks (s : List Char) : List Chunk := s.foldr Chunk.cons []

/-- A word with a hexadecimal literal in it made decimal. -/
def decimalWord (w : List Char) : Except Cause (List Char) :=
  match w with
  | '0' :: 'x' :: digits =>
    let value := Text.hexUpTo Text.wordLimit digits
    if !Text.isHexNumeral digits then .error .hexLiteralMalformed
    else if value < Text.wordLimit then .ok (Nat.toDigits 10 value)
    else .error .operandTooBig
  | _ => .ok w

/-- The text of a chunk, a hexadecimal literal made decimal. -/
def Chunk.toDecimal : Chunk → Except Cause (List Char)
  | word w => decimalWord w
  | delimiter c => .ok [c]

/-- Makes every hexadecimal literal of a text decimal. -/
def hexToDecimal (s : List Char) : Except Cause (List Char) :=
  List.flatten <$> (chunks s).mapM Chunk.toDecimal

/-- Drops the mnemonic and its space from the front, except from a label declaration. -/
def dropMnemonic (s : List Char) : List Char :=
  match (mnemonic ++ " ").toList.isPrefixOf? s with
  | some rest => if s.getLast? = some ':' then s else rest
  | none => s

/-- The text of a line that is read. -/
def clean (s : List Char) : Except Cause (List Char) := do
  let decimal ← hexToDecimal (spellDollar (takeCode s))
  return dropMnemonic (Text.unwords (Text.words decimal))

end Abcout.Source
