/-!
# Abcout.Text.Blank — white space, and cutting text at it

`isBlank` is the Unicode property White_Space.
-/

namespace Abcout.Text

/-- First and last code point of each run of characters with the property White_Space. -/
def blankRanges : List (Nat × Nat) :=
  [(0x09, 0x0D), (0x20, 0x20), (0x85, 0x85), (0xA0, 0xA0), (0x1680, 0x1680), (0x2000, 0x200A),
    (0x2028, 0x2029), (0x202F, 0x202F), (0x205F, 0x205F), (0x3000, 0x3000)]

/-- Whether a character is white space. -/
def isBlank (c : Char) : Bool := blankRanges.any fun (first, last) => first ≤ c.toNat && c.toNat ≤ last

/-- Drops the longest end of a list whose elements all satisfy `p`. -/
def dropEndWhile {α : Type} (p : α → Bool) (s : List α) : List α := (s.reverse.dropWhile p).reverse

/-- Drops white space at both ends. -/
def trim (s : List Char) : List Char := dropEndWhile isBlank (s.dropWhile isBlank)

/-- The words of a text: its longest runs without white space. -/
def words (s : List Char) : List (List Char) := (s.splitOnP isBlank).filter (!·.isEmpty)

/-- Words with one space between them. -/
def unwords (ws : List (List Char)) : List Char := [' '].intercalate ws

end Abcout.Text
