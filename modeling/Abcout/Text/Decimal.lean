import Abcout.Text.Numeral

/-!
# Abcout.Text.Decimal — decimal fractions, and their nearest binary number

A decimal fraction `m * 10 ^ e` is rounded to the nearest binary number with 53 significant bits and the exponent
range of a double; a tie goes to the even neighbour.  All arithmetic is on natural numbers, and powers of ten are
taken only after the size of the exponent is known to be within the range that can matter.

The digits of a written exponent count until its value has reached `Decimal.exponentCap`; those after are dropped,
so `1.0e655360` is read as `1.0e65536`.
-/

namespace Abcout.Text

/-- The number `digits * 10 ^ exponent`. -/
structure Decimal where
  digits : Nat
  exponent : Int
deriving DecidableEq, Repr

/-- The number `significand * 2 ^ scale`. -/
structure Binary where
  significand : Nat
  scale : Int
deriving DecidableEq, Repr

namespace Decimal

/-- A written exponent is read up to the first value that is not below this one. -/
def exponentCap : Nat := 65536

/-- The exponent part of a literal: nothing, or `e`, an optional sign, and digits. -/
def exponentPart? : List Char → Option Int
  | [] => some 0
  | e :: rest =>
    if e == 'e' || e == 'E' then
      let (negative, digits) := match rest with
        | '-' :: ds => (true, ds)
        | '+' :: ds => (false, ds)
        | ds => (false, ds)
      if isNumeral digits then
        let size : Int := numeralUpTo exponentCap digits
        some (if negative then -size else size)
      else none
    else none

/-- Reads digits, a point, further digits if any, and an exponent part. -/
def parse? (s : List Char) : Option Decimal :=
  let whole := s.takeWhile Char.isDigit
  match s.dropWhile Char.isDigit with
  | '.' :: rest =>
    let part := rest.takeWhile Char.isDigit
    match exponentPart? (rest.dropWhile Char.isDigit) with
    | some e => if whole.isEmpty then none else some ⟨longNumeralValue (whole ++ part), e - part.length⟩
    | none => none
  | _ => none

end Decimal

namespace Binary

/-- The natural number nearest to `num / den`, the even one of two. -/
def roundQuotient (num den : Nat) : Nat :=
  let q := num / den
  let twice := 2 * (num % den)
  if twice < den || (twice == den && q % 2 == 0) then q else q + 1

/-- The largest `k` with `2 ^ k ≤ num / den`, for positive `num` and `den`. -/
def floorLog (num den : Nat) : Int :=
  let k : Int := (num.log2 : Int) - den.log2
  if den <<< k.toNat ≤ num <<< (-k).toNat then k else k - 1

/-- The binary number nearest to `num / den`, for positive `num` and `den`; `none` if it is out of range. -/
def nearest? (num den : Nat) : Option Binary :=
  let top := floorLog num den
  let scale := max (top - 52) (-1074)
  let significand := roundQuotient (num <<< (-scale).toNat) (den <<< scale.toNat)
  if 1024 ≤ top || (scale == 971 && significand == 1 <<< 53) then none else some ⟨significand, scale⟩

/-- The natural number that a binary number is, if it is one. -/
def whole? (b : Binary) : Option Nat :=
  let unit := 1 <<< (-b.scale).toNat
  if b.significand % unit == 0 then some ((b.significand / unit) <<< b.scale.toNat) else none

end Binary

/-- The binary number nearest to a decimal fraction; `none` if it is too large to have one. -/
def Decimal.nearest? (d : Decimal) : Option Binary :=
  let n := d.exponent.natAbs
  if d.digits = 0 then some ⟨0, 0⟩
  else if 0 ≤ d.exponent then
    -- here the value is at least `2 ^ (log2 digits + 3 n)`
    if 1024 ≤ d.digits.log2 + 3 * n then none else Binary.nearest? (d.digits * Nat.pow 10 n) 1
  else
    -- here the value is below `2 ^ (log2 digits + 1 - 3 n)`
    if d.digits.log2 + 1076 ≤ 3 * n then some ⟨0, 0⟩ else Binary.nearest? d.digits (Nat.pow 10 n)

end Abcout.Text
