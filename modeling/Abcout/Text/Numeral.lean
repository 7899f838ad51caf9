/-!
# Abcout.Text.Numeral — decimal and hexadecimal numerals

A numeral may have any number of digits.  Where only values below a cap are of use, the digits after the first
value that reaches the cap are not read (`min_numeralUpTo`, `min_hexUpTo`); where all digits count, a long numeral
is read by halves (`longNumeralValue_eq`).
-/

namespace Abcout.Text

/-- One more than the largest number of 64 bits. -/
def wordLimit : Nat := 18446744073709551616

/-- Whether a text is one or more decimal digits. -/
def isNumeral (s : List Char) : Bool := !s.isEmpty && s.all Char.isDigit

/-- The number that decimal digits stand for. -/
def numeralValue (s : List Char) : Nat := Nat.ofDigitChars 10 s 0

/-- The number that digits in a base stand for, read from the left up to the first value that is `cap` or more. -/
def valueUpTo (cap base : Nat) (digit : Char → Nat) (s : List Char) : Nat :=
  s.foldl (fun n c => if n < cap then base * n + digit c else n) 0

theorem min_foldl_upTo {cap base : Nat} (digit : Char → Nat) (hb : 0 < base) (s : List Char) {n m : Nat}
    (h : min cap n = min cap m) :
    min cap (s.foldl (fun n c => if n < cap then base * n + digit c else n) n) =
      min cap (s.foldl (fun n c => base * n + digit c) m) := by
  induction s generalizing n m with
  | nil => exact h
  | cons c s ih =>
    refine ih ?_
    by_cases hn : n < cap
    · obtain rfl : n = m := by omega
      simp only [if_pos hn]
    · -- both values have reached the cap, and `base * m` is not below `m`
      have hm : m ≤ base * m := Nat.le_mul_of_pos_left m hb
      simp only [if_neg hn]
      omega

/-- The number that decimal digits stand for, read up to the first value that is `cap` or more. -/
def numeralUpTo (cap : Nat) (s : List Char) : Nat := valueUpTo cap 10 (fun c => c.toNat - '0'.toNat) s

theorem min_numeralUpTo (cap : Nat) (s : List Char) : min cap (numeralUpTo cap s) = min cap (numeralValue s) :=
  min_foldl_upTo _ (by decide) s rfl

/-- The number that decimal digits stand for, read in pieces after `depth` halvings of the text. -/
def valueByHalves : Nat → List Char → Nat
  | 0, s => numeralValue s
  | depth + 1, s =>
    let k := s.length / 2
    Nat.pow 10 (s.length - k) * valueByHalves depth (s.take k) + valueByHalves depth (s.drop k)

theorem ofDigitChars_eq_add (s : List Char) (n : Nat) :
    Nat.ofDigitChars 10 s n = Nat.pow 10 s.length * n + numeralValue s :=
  Nat.ofDigitChars_eq_ofDigitChars_zero

theorem valueByHalves_eq (depth : Nat) (s : List Char) : valueByHalves depth s = numeralValue s := by
  induction depth generalizing s with
  | zero => rfl
  | succ depth ih =>
    have hs : numeralValue s = Nat.ofDigitChars 10 (s.take (s.length / 2) ++ s.drop (s.length / 2)) 0 := by
      rw [List.take_append_drop]
      rfl
    rw [hs, Nat.ofDigitChars_append, ofDigitChars_eq_add, List.length_drop]
    simp only [valueByHalves, ih]
    rfl

/-- The number that decimal digits stand for; a long numeral is read in pieces of about 64 digits. -/
def longNumeralValue (s : List Char) : Nat := valueByHalves (s.length.log2 - 5) s

theorem longNumeralValue_eq (s : List Char) : longNumeralValue s = numeralValue s := valueByHalves_eq _ s

/-- The unsigned 64-bit number that a numeral stands for; one plus sign may come before it. -/
def unsigned? (s : List Char) : Option Nat :=
  let digits := match s with
    | '+' :: rest => rest
    | _ => s
  let value := numeralUpTo wordLimit digits
  if isNumeral digits && value < wordLimit then some value else none

/-- Whether a character is a hexadecimal digit, of either case. -/
def isHexDigit (c : Char) : Bool := c.isDigit || ('a' ≤ c && c ≤ 'f') || ('A' ≤ c && c ≤ 'F')

/-- The value of a hexadecimal digit. -/
def hexDigitValue (c : Char) : Nat :=
  if c.isDigit then c.toNat - '0'.toNat
  else if 'a' ≤ c then c.toNat - 'a'.toNat + 10
  else c.toNat - 'A'.toNat + 10

/-- Whether a text is one or more hexadecimal digits. -/
def isHexNumeral (s : List Char) : Bool := !s.isEmpty && s.all isHexDigit

/-- The number that hexadecimal digits stand for. -/
def hexValue (s : List Char) : Nat := s.foldl (fun n c => 16 * n + hexDigitValue c) 0

/-- The number that hexadecimal digits stand for, read up to the first value that is `cap` or more. -/
def hexUpTo (cap : Nat) (s : List Char) : Nat := valueUpTo cap 16 hexDigitValue s

theorem min_hexUpTo (cap : Nat) (s : List Char) : min cap (hexUpTo cap s) = min cap (hexValue s) :=
  min_foldl_upTo _ (by decide) s rfl

end Abcout.Text
