import Abcout.Proofs.Listing
import Abcout.Proofs.Rounding

/-!
# Abcout.Proofs.Fractions — which decimal fractions are operands

A decimal literal is taken for a number if that number is the nearest double (`Operand.parse_literal_iff_nearest`).
This is exact for literals with at most eleven decimal places: they are numbers if their values are whole.  Others
are numbers too if they are near enough (`Operand.parse_nearlyOne`).

The digits of a written exponent count up to a cap.  That changes nothing as long as the exponent is below the cap,
or the literal has at most 48000 digits (`DecimalLiteral.readExactly_of_short`).
-/

namespace Abcout

namespace Text

/-! ## Literals -/

/-- The sign of a written exponent. -/
inductive Sign where
  | absent
  | plus
  | minus

namespace Sign

def text : Sign → List Char
  | absent => []
  | plus => ['+']
  | minus => ['-']

def apply (s : Sign) (n : Nat) : Int :=
  match s with
  | absent => n
  | plus => n
  | minus => -n

end Sign

/-- A written exponent. -/
structure ExponentPart where
  mark : Char
  sign : Sign
  digits : List Char
  isMark : mark = 'e' ∨ mark = 'E'
  isNumeral : isNumeral digits = true

def ExponentPart.text (e : ExponentPart) : List Char := e.mark :: (e.sign.text ++ e.digits)

/-- A decimal literal: digits, a point, digits or none, and an exponent or none. -/
structure DecimalLiteral where
  whole : List Char
  part : List Char
  exponentPart : Option ExponentPart
  isNumeral_whole : isNumeral whole = true
  isDigits_part : part.all Char.isDigit = true

namespace DecimalLiteral

variable (l : DecimalLiteral)

theorem isDigit_part : ∀ c ∈ l.part, c.isDigit = true := List.all_eq_true.1 l.isDigits_part

def text : List Char := l.whole ++ '.' :: (l.part ++ (l.exponentPart.map ExponentPart.text).getD [])

/-- The exponent of a literal, with a reading of its digits. -/
def exponentBy (read : List Char → Nat) : Int := (l.exponentPart.map fun e => e.sign.apply (read e.digits)).getD 0

/-- The exact value of a literal. -/
def value : ℚ := (numeralValue l.whole + numeralValue l.part / 10 ^ l.part.length) * 10 ^ l.exponentBy numeralValue

/-- The digits of a literal, and where the point is, with a reading of the exponent. -/
def decimalBy (read : List Char → Nat) : Decimal :=
  ⟨numeralValue (l.whole ++ l.part), l.exponentBy read - l.part.length⟩

/-- What is read for a literal is rounded as its exact value is. -/
def ReadExactly : Prop :=
  (l.decimalBy (numeralUpTo Decimal.exponentCap)).nearest? = (l.decimalBy numeralValue).nearest?

theorem value_decimalBy : (l.decimalBy numeralValue).value = l.value := by
  have hdigits : numeralValue (l.whole ++ l.part) = 10 ^ l.part.length * numeralValue l.whole +
      numeralValue l.part := by
    rw [numeralValue, Nat.ofDigitChars_append, ofDigitChars_eq_add]
    rfl
  rw [Decimal.value, value, decimalBy, hdigits]
  simp only
  rw [zpow_sub₀ (by norm_num), zpow_natCast]
  push_cast
  field_simp

end DecimalLiteral

/-! ## Reading -/

theorem exponentPart?_text (e : ExponentPart) :
    Decimal.exponentPart? e.text = some (e.sign.apply (numeralUpTo Decimal.exponentCap e.digits)) := by
  obtain ⟨mark, sign, digits, hmark, hdigits⟩ := e
  have hmark' : (mark == 'e' || mark == 'E') = true := by simpa using hmark
  cases sign with
  | plus => simp [ExponentPart.text, Sign.text, Sign.apply, Decimal.exponentPart?, hmark', hdigits]
  | minus => simp [ExponentPart.text, Sign.text, Sign.apply, Decimal.exponentPart?, hmark', hdigits]
  | absent =>
    obtain ⟨hne, hall⟩ := isNumeral_iff.1 hdigits
    obtain ⟨c, rest, rfl⟩ := List.exists_cons_of_ne_nil hne
    have hc : c.isDigit = true := hall c List.mem_cons_self
    have hplus : c ≠ '+' := ne_of_isDigit hc (by decide)
    have hminus : c ≠ '-' := ne_of_isDigit hc (by decide)
    simp [ExponentPart.text, Sign.text, Sign.apply, Decimal.exponentPart?, hmark', hdigits, hplus, hminus]

namespace DecimalLiteral

variable (l : DecimalLiteral)

/-- **A literal is read as its digits, with an exponent that is read up to its cap.** -/
theorem parse?_text : Decimal.parse? l.text = some (l.decimalBy (numeralUpTo Decimal.exponentCap)) := by
  obtain ⟨hne, hwhole⟩ := isNumeral_iff.1 l.isNumeral_whole
  have hpoint : ('.').isDigit = false := by decide
  set rest := (l.exponentPart.map ExponentPart.text).getD [] with hrest
  have hmark : rest.takeWhile Char.isDigit = [] ∧ rest.dropWhile Char.isDigit = rest := by
    cases he : l.exponentPart with
    | none => simp [hrest, he]
    | some e =>
      have hdigit : e.mark.isDigit = false := by rcases e.isMark with h | h <;> rw [h] <;> decide
      simp [hrest, he, ExponentPart.text, hdigit]
  have hexponent : Decimal.exponentPart? rest = some (l.exponentBy (numeralUpTo Decimal.exponentCap)) := by
    cases he : l.exponentPart with
    | none => simp [hrest, he, exponentBy, Decimal.exponentPart?]
    | some e => simp [hrest, he, exponentBy, exponentPart?_text]
  have hstart : l.text.takeWhile Char.isDigit = l.whole ∧
      l.text.dropWhile Char.isDigit = '.' :: (l.part ++ rest) := by
    simp [text, ← hrest, List.takeWhile_append_of_pos hwhole, List.dropWhile_append_of_pos hwhole, hpoint]
  have hpart : (l.part ++ rest).takeWhile Char.isDigit = l.part ∧
      (l.part ++ rest).dropWhile Char.isDigit = rest := by
    simp [List.takeWhile_append_of_pos l.isDigit_part, List.dropWhile_append_of_pos l.isDigit_part, hmark]
  unfold Decimal.parse?
  simp only [hstart, hpart, hexponent]
  rw [if_neg (by simpa using hne), longNumeralValue_eq]
  rfl

theorem parse_text : Operand.parse l.text = Operand.ofDecimal (l.decimalBy (numeralUpTo Decimal.exponentCap)) := by
  obtain ⟨hne, hwhole⟩ := isNumeral_iff.1 l.isNumeral_whole
  obtain ⟨c, rest, hcons⟩ := List.exists_cons_of_ne_nil hne
  have htext : ∃ later, l.text = c :: later := ⟨_, by rw [text, hcons, List.cons_append]⟩
  obtain ⟨later, hlater⟩ := htext
  have hpoint : l.text.contains '.' = true := by simp [text]
  have hc : c.isDigit = true := hwhole c (hcons ▸ List.mem_cons_self)
  rw [hlater, Operand.parse_of_isDigit hc, ← hlater, Operand.parseNumber, hpoint, if_pos rfl, l.parse?_text]

end DecimalLiteral

/-! ## Long exponents -/

theorem numeralValue_lt {s : List Char} (h : ∀ c ∈ s, c.isDigit = true) : numeralValue s < 10 ^ s.length := by
  induction s with
  | nil => decide
  | cons c s ih =>
    obtain ⟨hc, hs⟩ := List.forall_mem_cons.1 h
    obtain ⟨hlow, hhigh⟩ := toNat_of_isDigit hc
    have hcons : numeralValue (c :: s) = 10 ^ s.length * (c.toNat - 48) + numeralValue s := by
      rw [numeralValue, Nat.ofDigitChars_cons, ofDigitChars_eq_add]
      simp
    have hlt := ih hs
    have hdigit : 10 ^ s.length * (c.toNat - 48) ≤ 10 ^ s.length * 9 := Nat.mul_le_mul_left _ (by omega)
    rw [hcons, List.length_cons, pow_succ]
    omega

theorem log2_numeralValue_le {s : List Char} (h : ∀ c ∈ s, c.isDigit = true) :
    (numeralValue s).log2 ≤ 4 * s.length := by
  by_cases hzero : numeralValue s = 0
  · rw [hzero]
    exact Nat.zero_le _
  · refine Nat.le_of_lt ((Nat.log2_lt hzero).2 ((numeralValue_lt h).trans_le ?_))
    rw [pow_mul]
    exact Nat.pow_le_pow_left (by decide) _

theorem Decimal.nearest?_of_large {digits : Nat} {exponent : Int} (h : 342 ≤ exponent) :
    Decimal.nearest? ⟨digits, exponent⟩ = if digits = 0 then some ⟨0, 0⟩ else none := by
  unfold Decimal.nearest?
  simp only
  have hlarge : 1024 ≤ digits.log2 + 3 * exponent.natAbs := by omega
  rw [if_pos (by omega : 0 ≤ exponent), if_pos hlarge]

theorem Decimal.nearest?_of_small {digits : Nat} {exponent : Int} (h : exponent < 0)
    (hsmall : digits.log2 + 1076 ≤ 3 * exponent.natAbs) : Decimal.nearest? ⟨digits, exponent⟩ = some ⟨0, 0⟩ := by
  unfold Decimal.nearest?
  simp only
  rw [if_neg (not_le.2 h), if_pos hsmall, ite_self]

namespace DecimalLiteral

variable {l : DecimalLiteral}

/-- The cap of exponents changes nothing for an exponent below it, and nothing for a literal with few digits: what
has a larger exponent is too large for a double, or next to nothing. -/
theorem readExactly_of_short (h : (∀ e ∈ l.exponentPart, numeralValue e.digits < Decimal.exponentCap) ∨
    l.whole.length + l.part.length ≤ 48000) : l.ReadExactly := by
  have hbelow : ∀ s, numeralValue s < Decimal.exponentCap →
      numeralUpTo Decimal.exponentCap s = numeralValue s := by
    intro s hs
    have hmin := min_numeralUpTo Decimal.exponentCap s
    omega
  unfold ReadExactly
  cases he : l.exponentPart with
  | none => simp [decimalBy, exponentBy, he]
  | some e =>
    by_cases hcap : numeralValue e.digits < Decimal.exponentCap
    · simp [decimalBy, exponentBy, he, hbelow _ hcap]
    · have hlength := h.resolve_left fun hall => hcap (hall e he)
      have hmin := min_numeralUpTo Decimal.exponentCap e.digits
      have hread : Decimal.exponentCap ≤ numeralUpTo Decimal.exponentCap e.digits := by omega
      have hdigits : ∀ c ∈ l.whole ++ l.part, c.isDigit = true :=
        List.forall_mem_append.2 ⟨(isNumeral_iff.1 l.isNumeral_whole).2, l.isDigit_part⟩
      have hlog := log2_numeralValue_le hdigits
      rw [List.length_append] at hlog
      have hvalue : Decimal.exponentCap = 65536 := rfl
      have hexponent : ∀ read, l.exponentBy read = e.sign.apply (read e.digits) :=
        fun read => by simp [exponentBy, he]
      rw [decimalBy, decimalBy, hexponent, hexponent]
      cases e.sign with
      | minus =>
        simp only [Sign.apply]
        rw [Decimal.nearest?_of_small (by omega) (by omega), Decimal.nearest?_of_small (by omega) (by omega)]
      | _ =>
        simp only [Sign.apply]
        rw [Decimal.nearest?_of_large (by omega), Decimal.nearest?_of_large (by omega)]

end DecimalLiteral

end Text

namespace Operand

theorem ofNat_eq_number_iff {k : Nat} {n : UInt16} :
    ofNat k = .ok (.number n) ↔ n.toNat ≤ maxValue ∧ k = n.toNat := by
  constructor
  · intro h
    unfold ofNat at h
    split_ifs at h with hk
    cases h
    have hmod : k % 2 ^ 16 = k := Nat.mod_eq_of_lt (lt_of_le_of_lt hk (by decide))
    rw [UInt16.toNat_ofNat', hmod]
    exact ⟨hk, rfl⟩
  · rintro ⟨hn, rfl⟩
    exact ofNat_toNat_eq_ok.2 ⟨hn, rfl⟩

theorem ofDecimal_eq_number_iff {d : Text.Decimal} {n : UInt16} :
    ofDecimal d = .ok (.number n) ↔ n.toNat ≤ maxValue ∧ d.nearest?.bind Text.Binary.whole? = some n.toNat := by
  unfold ofDecimal
  cases d.nearest?.bind Text.Binary.whole? with
  | none => simp
  | some k => simp [ofNat_eq_number_iff]

theorem parse_literal_iff {l : Text.DecimalLiteral} (hread : l.ReadExactly) {n : UInt16} :
    parse l.text = .ok (.number n) ↔ n.toNat ≤ maxValue ∧ Text.NearestDouble l.value n.toNat := by
  rw [l.parse_text, ofDecimal_eq_number_iff, hread, ← l.value_decimalBy]
  refine and_congr_right fun hn => Text.Decimal.whole_nearest?_iff _ ?_
  exact lt_of_le_of_lt hn (by decide)

/-- **The decimal fractions that are numbers**: those to which the number is the nearest double.  If there are at
most eleven decimal places, these are the fractions whose value is the number. -/
theorem parse_literal_iff_nearest (l : Text.DecimalLiteral) (hread : l.ReadExactly) (n : UInt16) :
    (parse l.text = .ok (.number n) ↔ n.toNat ≤ maxValue ∧ Text.NearestDouble l.value n.toNat) ∧
      ((∃ k : ℤ, l.value * 10 ^ 11 = k) →
        (parse l.text = .ok (.number n) ↔ n.toNat ≤ maxValue ∧ l.value = n.toNat)) := by
  refine ⟨parse_literal_iff hread, ?_⟩
  rintro ⟨k, hk⟩
  rw [parse_literal_iff hread]
  refine and_congr_right fun hn => ⟨fun h => h.eq_of_places hn hk, fun h => ?_⟩
  rw [h]
  exact (Text.isDouble_natCast (lt_of_le_of_lt hn (by decide))).nearest

/-- A literal with a whole value, whose point is moved by an exponent. -/
def shifted : Text.DecimalLiteral :=
  ⟨"0".toList, "00327670".toList, some ⟨'E', .plus, "7".toList, .inr rfl, by decide⟩, by decide, by decide⟩

theorem parse_literal_iff_nearest_shifted : shifted.text = "0.00327670E+7".toList ∧ shifted.ReadExactly ∧
    shifted.value * 10 ^ 11 = (3276700000000000 : ℤ) ∧ parse shifted.text = .ok (.number 32767) ∧
    Text.NearestDouble shifted.value (32767 : UInt16).toNat := by
  have hread : shifted.ReadExactly := Text.DecimalLiteral.readExactly_of_short (.inr (by decide))
  have hwhole : Text.numeralValue shifted.whole = 0 := by decide +kernel
  have hpart : Text.numeralValue shifted.part = 327670 := by decide +kernel
  have hplaces : shifted.part.length = 8 := by decide +kernel
  have hexponent : shifted.exponentBy Text.numeralValue = 7 := by decide +kernel
  have hnumber : (32767 : UInt16).toNat = 32767 := rfl
  have hvalue : shifted.value = (32767 : UInt16).toNat := by
    rw [Text.DecimalLiteral.value, hwhole, hpart, hplaces, hexponent, hnumber]
    norm_num
  have hscaled : shifted.value * 10 ^ 11 = (3276700000000000 : ℤ) := by
    rw [hvalue, hnumber]
    norm_num
  obtain ⟨hnearest, hexact⟩ := parse_literal_iff_nearest shifted hread 32767
  have hparse := (hexact ⟨_, hscaled⟩).2 ⟨by decide, hvalue⟩
  exact ⟨by decide, hread, hscaled, hparse, (hnearest.1 hparse).2⟩

/-- A literal that is not whole. -/
def nearlyOne : Text.DecimalLiteral := ⟨"1".toList, "00000000000000001".toList, none, by decide, by decide⟩

/-- It is taken for the number that it is near to. -/
theorem parse_nearlyOne : nearlyOne.text = "1.00000000000000001".toList ∧
    parse nearlyOne.text = .ok (.number 1) ∧ nearlyOne.value = 1 + 1 / 10 ^ 17 ∧ nearlyOne.value ≠ 1 := by
  have hwhole : Text.numeralValue nearlyOne.whole = 1 := by decide +kernel
  have hpart : Text.numeralValue nearlyOne.part = 1 := by decide +kernel
  have hplaces : nearlyOne.part.length = 17 := by decide +kernel
  have hexponent : nearlyOne.exponentBy Text.numeralValue = 0 := by decide +kernel
  have hvalue : nearlyOne.value = 1 + 1 / 10 ^ 17 := by
    rw [Text.DecimalLiteral.value, hwhole, hpart, hplaces, hexponent]
    norm_num
  refine ⟨by decide +kernel, by decide +kernel, hvalue, ?_⟩
  rw [hvalue]
  norm_num

end Operand

end Abcout
