import Mathlib.Algebra.Order.Field.Power
import Mathlib.Algebra.Order.Field.Rat
import Mathlib.Tactic.FieldSimp
import Mathlib.Tactic.Linarith
import Mathlib.Tactic.NormNum
import Mathlib.Tactic.Positivity
import Mathlib.Tactic.Ring
import Abcout.Text.Decimal

/-!
# Abcout.Proofs.Rounding — the nearest double

`NearestDouble x d`: the double `d` is as near to the rational number `x` as any other.  Rounding gives such a
double (`Binary.Rounds.abs_sub_value_le`), and where a whole number below `2 ^ 52` is one, it is the one that
rounding gives: of two doubles at the same distance it is the even one (`Binary.Rounds.value_eq`).  So the fraction
is taken for the whole number `n` if and only if `n` is nearest to it (`Decimal.whole_nearest?_iff`).
-/

namespace Abcout.Text

/-- The numbers that a double can be. -/
def IsDouble (d : ℚ) : Prop := ∃ m s : ℤ, |m| < 2 ^ 53 ∧ -1074 ≤ s ∧ s ≤ 971 ∧ d = m * 2 ^ s

/-- A double than which no other is nearer to `x`. -/
structure NearestDouble (x d : ℚ) : Prop where
  isDouble : IsDouble d
  le : ∀ e, IsDouble e → |x - d| ≤ |x - e|

/-- The value of a binary number. -/
def Binary.value (b : Binary) : ℚ := b.significand * 2 ^ b.scale

/-- The value of a decimal number. -/
def Decimal.value (d : Decimal) : ℚ := d.digits * 10 ^ d.exponent

theorem isDouble_natCast {n : ℕ} (h : n < 2 ^ 53) : IsDouble n := by
  refine ⟨n, 0, ?_, by norm_num, by norm_num, by simp⟩
  rw [Nat.abs_cast]
  exact_mod_cast h

theorem isDouble_zero : IsDouble 0 := by
  simpa using isDouble_natCast (n := 0) (by norm_num)

theorem IsDouble.nearest {d : ℚ} (h : IsDouble d) : NearestDouble d d := by
  refine ⟨h, fun e _ => ?_⟩
  rw [sub_self, abs_zero]
  exact abs_nonneg _

/-- Large numbers have nearer doubles than small whole numbers. -/
theorem NearestDouble.lt_of_natCast {x : ℚ} {n : ℕ} (h : NearestDouble x n) (hn : n < 2 ^ 52) : x < 2 ^ 52 := by
  by_contra hx
  have hle := h.le (2 ^ 52 : ℕ) (isDouble_natCast (by norm_num))
  have hn' : (n : ℚ) < 2 ^ 52 := by exact_mod_cast hn
  rw [abs_of_nonneg (by linarith), abs_of_nonneg (by push_cast; linarith)] at hle
  push_cast at hle
  linarith

theorem two_zpow_eq (s : ℤ) : (2 : ℚ) ^ s = 2 ^ s.toNat / 2 ^ (-s).toNat := by
  rcases Int.eq_nat_or_neg s with ⟨n, rfl | rfl⟩
  · simp
  · simp

/-! ## Quotients -/

namespace Binary

variable {num den : ℕ}

theorem div_eq_add_mod_div (num : ℕ) (hden : 0 < den) :
    (num / den : ℚ) = (num / den : ℕ) + (num % den : ℕ) / den := by
  have hden' : (den : ℚ) ≠ 0 := by exact_mod_cast hden.ne'
  rw [div_eq_iff hden', add_mul, div_mul_cancel₀ _ hden', mul_comm _ (den : ℚ)]
  exact_mod_cast (Nat.div_add_mod num den).symm

theorem two_mul_lt_iff (hden : 0 < den) (r : ℕ) : 2 * r < den ↔ (r / den : ℚ) < 1 / 2 := by
  rw [div_lt_iff₀ (by exact_mod_cast hden), one_div_mul_eq_div, lt_div_iff₀ (by norm_num), mul_comm]
  exact_mod_cast Iff.rfl

theorem two_mul_eq_iff (hden : 0 < den) (r : ℕ) : 2 * r = den ↔ (r / den : ℚ) = 1 / 2 := by
  rw [div_eq_iff (by exact_mod_cast hden.ne'), one_div_mul_eq_div, eq_div_iff (by norm_num), mul_comm]
  exact_mod_cast Iff.rfl

/-- A quotient is rounded by at most one half, and to an even number if by one half. -/
theorem roundQuotient_spec (num : ℕ) (hden : 0 < den) : |(num / den : ℚ) - roundQuotient num den| ≤ 1 / 2 ∧
    (|(num / den : ℚ) - roundQuotient num den| = 1 / 2 → roundQuotient num den % 2 = 0) := by
  have hround : roundQuotient num den =
      if 2 * (num % den) < den ∨ 2 * (num % den) = den ∧ num / den % 2 = 0 then num / den
      else num / den + 1 := by
    simp [roundQuotient]
  have hpos : (0 : ℚ) ≤ (num % den : ℕ) / den := by positivity
  have hone : ((num % den : ℕ) / den : ℚ) < 1 := by
    rw [div_lt_one (by exact_mod_cast hden)]
    exact_mod_cast Nat.mod_lt num hden
  rw [div_eq_add_mod_div num hden, hround]
  split_ifs with hdown
  all_goals
    rw [two_mul_lt_iff hden, two_mul_eq_iff hden] at hdown
    generalize ((num % den : ℕ) / den : ℚ) = t at *
  · rw [add_sub_cancel_left, abs_of_nonneg hpos]
    rcases hdown with ht | ⟨ht, heven⟩
    · exact ⟨ht.le, fun e => absurd e ht.ne⟩
    · exact ⟨ht.le, fun _ => heven⟩
  · have ht : 1 / 2 ≤ t := not_lt.1 fun ht => hdown (.inl ht)
    have habs : |((num / den : ℕ) : ℚ) + t - ((num / den + 1 : ℕ) : ℚ)| = 1 - t := by
      rw [abs_of_nonpos (by push_cast; linarith)]
      push_cast
      ring
    rw [habs]
    refine ⟨by linarith, fun e => ?_⟩
    have hodd : ¬ num / den % 2 = 0 := fun heven => hdown (.inr ⟨by linarith, heven⟩)
    omega

theorem div_lt_two_zpow_log2 (num : ℕ) (hden : 0 < den) : (num / den : ℚ) <
    2 ^ ((num.log2 : ℤ) - den.log2 + 1) := by
  have hnum_lt : (num : ℚ) < 2 ^ (num.log2 + 1) := by exact_mod_cast Nat.lt_log2_self
  have hden_le : (2 : ℚ) ^ den.log2 ≤ den := by exact_mod_cast Nat.log2_self_le hden.ne'
  have hpow : (2 : ℚ) ^ ((num.log2 : ℤ) - den.log2 + 1) = 2 ^ (num.log2 + 1) / 2 ^ den.log2 := by
    rw [sub_add_eq_add_sub, zpow_sub₀ (by norm_num)]
    rfl
  rw [hpow]
  exact div_lt_div₀ hnum_lt hden_le (by positivity) (by positivity)

theorem two_zpow_log2_le_div (hnum : 0 < num) (hden : 0 < den) :
    (2 : ℚ) ^ ((num.log2 : ℤ) - den.log2 - 1) ≤ num / den := by
  have hnum_le : (2 : ℚ) ^ num.log2 ≤ num := by exact_mod_cast Nat.log2_self_le hnum.ne'
  have hden_lt : (den : ℚ) < 2 ^ (den.log2 + 1) := by exact_mod_cast Nat.lt_log2_self
  have hden' : (0 : ℚ) < den := by exact_mod_cast hden
  have hpow : (2 : ℚ) ^ ((num.log2 : ℤ) - den.log2 - 1) = 2 ^ num.log2 / 2 ^ (den.log2 + 1) := by
    rw [sub_sub, zpow_sub₀ (by norm_num)]
    rfl
  rw [hpow]
  exact div_le_div₀ (by positivity) hnum_le hden' hden_lt.le

/-- The power of two below a quotient. -/
theorem floorLog_spec (hnum : 0 < num) (hden : 0 < den) :
    (2 : ℚ) ^ floorLog num den ≤ num / den ∧ (num / den : ℚ) < 2 ^ (floorLog num den + 1) := by
  have hden' : (0 : ℚ) < den := by exact_mod_cast hden
  set k : ℤ := (num.log2 : ℤ) - den.log2
  have htest : den <<< k.toNat ≤ num <<< (-k).toNat ↔ (2 : ℚ) ^ k ≤ num / den := by
    rw [Nat.shiftLeft_eq, Nat.shiftLeft_eq, two_zpow_eq, div_le_div_iff₀ (by positivity) hden',
      mul_comm (2 ^ k.toNat : ℚ)]
    exact_mod_cast Iff.rfl
  have hlog : floorLog num den = if den <<< k.toNat ≤ num <<< (-k).toNat then k else k - 1 := rfl
  rw [hlog]
  split_ifs with h
  · exact ⟨htest.1 h, div_lt_two_zpow_log2 num hden⟩
  · rw [sub_add_cancel]
    exact ⟨two_zpow_log2_le_div hnum hden, not_le.1 fun hle => h (htest.2 hle)⟩

/-! ## Rounding -/

/-- The binary number `b` is `x`, rounded to the scale that `x` has. -/
structure Rounds (x : ℚ) (b : Binary) : Prop where
  exists_top : ∃ top : ℤ, 2 ^ top ≤ x ∧ x < 2 ^ (top + 1) ∧ b.scale = max (top - 52) (-1074)
  near : |x / 2 ^ b.scale - b.significand| ≤ 1 / 2
  even : |x / 2 ^ b.scale - b.significand| = 1 / 2 → b.significand % 2 = 0

/-- A quotient is rounded, or it is too large. -/
theorem exists_rounds (hnum : 0 < num) (hden : 0 < den) :
    ∃ b : Binary, b.Rounds (num / den) ∧ (nearest? num den = some b ∨ nearest? num den = none ∧ 0 ≤ b.scale) := by
  set top := floorLog num den with htop
  set scale := max (top - 52) (-1074) with hscale
  set significand := roundQuotient (num <<< (-scale).toNat) (den <<< scale.toNat) with hsignificand
  have hquotient : ((num <<< (-scale).toNat : ℕ) / (den <<< scale.toNat : ℕ) : ℚ) = num / den / 2 ^ scale := by
    have hden' : (den : ℚ) ≠ 0 := by exact_mod_cast hden.ne'
    rw [Nat.shiftLeft_eq, Nat.shiftLeft_eq, two_zpow_eq]
    push_cast
    field_simp
  have hpos : 0 < den <<< scale.toNat := by
    rw [Nat.shiftLeft_eq]
    positivity
  have hround := roundQuotient_spec (num <<< (-scale).toNat) hpos
  rw [hquotient] at hround
  obtain ⟨hlow, hhigh⟩ := floorLog_spec hnum hden
  refine ⟨⟨significand, scale⟩, ⟨⟨top, hlow, hhigh, rfl⟩, hround.1, hround.2⟩, ?_⟩
  have hnearest : nearest? num den = if 1024 ≤ top ∨ scale = 971 ∧ significand = 1 <<< 53 then none
      else some ⟨significand, scale⟩ := by
    simp [nearest?, ← htop, ← hscale, ← hsignificand]
  rw [hnearest]
  split_ifs with h
  · exact .inr ⟨rfl, by rcases h with h | ⟨h, -⟩ <;> simp only <;> omega⟩
  · exact .inl rfl

/-- Of all whole numbers, one that is at most one half away is nearest. -/
theorem abs_sub_le_of_half {y : ℚ} {m : ℤ} (h : |y - m| ≤ 1 / 2) (k : ℤ) : |y - m| ≤ |y - k| := by
  by_cases hk : k = m
  · rw [hk]
  · have hone : (1 : ℚ) ≤ |(m : ℚ) - k| := by exact_mod_cast Int.one_le_abs (sub_ne_zero.2 (Ne.symm hk))
    have htriangle : |(m : ℚ) - k| ≤ |y - m| + |y - k| := by
      rw [abs_sub_comm y m]
      exact abs_sub_le _ _ _
    linarith

/-- Of two whole numbers at the same distance only one is even. -/
theorem eq_of_even {y : ℚ} {m k : ℤ} (hm : |y - m| ≤ 1 / 2) (hk : |y - k| ≤ |y - m|)
    (hm_even : |y - m| = 1 / 2 → m % 2 = 0) (hk_even : k % 2 = 0) : m = k := by
  have htriangle : |(m : ℚ) - k| ≤ |y - m| + |y - k| := by
    rw [abs_sub_comm y m]
    exact abs_sub_le _ _ _
  have hle : |m - k| ≤ 1 := by
    have hle' : |(m : ℚ) - k| ≤ 1 := by linarith
    exact_mod_cast hle'
  by_contra hne
  -- neighbours, and `y` half-way between them
  have hone : (1 : ℚ) ≤ |(m : ℚ) - k| := by exact_mod_cast Int.one_le_abs (sub_ne_zero.2 hne)
  have hparity := hm_even (by linarith)
  have hbounds := abs_le.1 hle
  omega

theorem abs_sub_mul (x k : ℚ) (s : ℤ) : |x - k * 2 ^ s| = |x / 2 ^ s - k| * 2 ^ s := by
  have hunit : (0 : ℚ) < 2 ^ s := by positivity
  rw [← abs_of_pos hunit, ← abs_mul, abs_of_pos hunit, sub_mul, div_mul_cancel₀ _ hunit.ne']

namespace Rounds

variable {x : ℚ} {b : Binary} {n : ℕ}

/-- No multiple of the unit in which `x` is rounded is nearer. -/
theorem abs_sub_value_le_multiple (h : b.Rounds x) (k : ℤ) : |x - b.value| ≤ |x - k * 2 ^ b.scale| := by
  have hhalf : |x / 2 ^ b.scale - (b.significand : ℤ)| ≤ 1 / 2 := by exact_mod_cast h.near
  have hnear := abs_sub_le_of_half hhalf k
  rw [value, abs_sub_mul, abs_sub_mul]
  refine mul_le_mul_of_nonneg_right ?_ (by positivity)
  exact_mod_cast hnear

/-- **No double is nearer than the number that rounding gives.** -/
theorem abs_sub_value_le (h : b.Rounds x) {e : ℚ} (he : IsDouble e) : |x - b.value| ≤ |x - e| := by
  obtain ⟨j, t, hj, ht, -, rfl⟩ := he
  obtain ⟨top, hlow, -, hscale⟩ := h.exists_top
  by_cases hfine : b.scale ≤ t
  · obtain ⟨k, hk⟩ := Int.eq_ofNat_of_zero_le (sub_nonneg.2 hfine)
    have hmultiple : (j : ℚ) * 2 ^ t = ((j * 2 ^ k : ℤ) : ℚ) * 2 ^ b.scale := by
      obtain rfl : t = k + b.scale := by omega
      rw [zpow_add₀ (by norm_num), zpow_natCast]
      push_cast
      ring
    rw [hmultiple]
    exact h.abs_sub_value_le_multiple _
  · -- a double in finer units lies below the power of two under `x`, which is a multiple of the unit
    have hsplit : b.scale = top - 52 := by omega
    have hlt : (j : ℚ) * 2 ^ t < 2 ^ top := by
      have hj' : (j : ℚ) < 2 ^ 53 := by exact_mod_cast lt_of_abs_lt hj
      calc (j : ℚ) * 2 ^ t < 2 ^ 53 * 2 ^ t := by gcongr
        _ = 2 ^ (53 + t) := by
          rw [zpow_add₀ (by norm_num)]
          norm_num
        _ ≤ 2 ^ top := zpow_le_zpow_right₀ (by norm_num) (by omega)
    have htop : ((2 ^ 52 : ℤ) : ℚ) * 2 ^ b.scale = 2 ^ top := by
      rw [hsplit, zpow_sub₀ (by norm_num)]
      norm_num
      field_simp
    have hnear := h.abs_sub_value_le_multiple (2 ^ 52)
    rw [htop, abs_of_nonneg (sub_nonneg.2 hlow)] at hnear
    have habs : x - j * 2 ^ t ≤ |x - j * 2 ^ t| := le_abs_self _
    linarith

theorem significand_le (h : b.Rounds x) : b.significand ≤ 2 ^ 53 := by
  obtain ⟨top, -, hhigh, hscale⟩ := h.exists_top
  have hx : x / 2 ^ b.scale < 2 ^ 53 := by
    rw [div_lt_iff₀ (by positivity)]
    calc x < 2 ^ (top + 1) := hhigh
      _ ≤ 2 ^ (53 + b.scale) := zpow_le_zpow_right₀ (by norm_num) (by omega)
      _ = 2 ^ 53 * 2 ^ b.scale := by
        rw [zpow_add₀ (by norm_num)]
        norm_num
  have hnear := (abs_le.1 h.near).1
  have hlt : (b.significand : ℚ) < (2 ^ 53 + 1 : ℕ) := by
    push_cast
    linarith
  exact Nat.lt_succ_iff.1 (by exact_mod_cast hlt)

theorem isDouble_value (h : b.Rounds x) (hscale : b.scale < 971) : IsDouble b.value := by
  obtain ⟨top, -, -, hs⟩ := h.exists_top
  rcases h.significand_le.lt_or_eq with hlt | heq
  · refine ⟨b.significand, b.scale, ?_, by omega, by omega, by simp [value]⟩
    rw [Nat.abs_cast]
    exact_mod_cast hlt
  · refine ⟨2 ^ 52, b.scale + 1, by norm_num, by omega, by omega, ?_⟩
    rw [value, heq, zpow_add_one₀ (by norm_num)]
    norm_num
    ring

/-- Where a whole number is nearest, the unit is less than one. -/
theorem scale_neg (h : b.Rounds x) (hn : n < 2 ^ 52) (hnear : NearestDouble x n) : b.scale < 0 := by
  by_contra hscale
  obtain ⟨top, hlow, -, hs⟩ := h.exists_top
  have hx : (2 : ℚ) ^ 52 ≤ x := by
    calc (2 : ℚ) ^ 52 = 2 ^ (52 : ℤ) := by norm_num
      _ ≤ 2 ^ top := zpow_le_zpow_right₀ (by norm_num) (by omega)
      _ ≤ x := hlow
  exact absurd hx (not_le.2 (hnear.lt_of_natCast hn))

/-- **A whole number that is nearest is what rounding gives**, as it is even in units less than one. -/
theorem value_eq (h : b.Rounds x) (hn : n < 2 ^ 52) (hnear : NearestDouble x n) : b.value = n := by
  have hscale := h.scale_neg hn hnear
  obtain ⟨k, hk⟩ : ∃ k : ℕ, b.scale = -(k + 1) := ⟨(-b.scale - 1).toNat, by omega⟩
  have hmultiple : (n : ℚ) = ((n * 2 ^ (k + 1) : ℤ) : ℚ) * 2 ^ b.scale := by
    rw [hk, zpow_neg, ← Nat.cast_succ, zpow_natCast]
    push_cast
    field_simp
  have hunit : (0 : ℚ) < 2 ^ b.scale := by positivity
  have hle := hnear.le _ (h.isDouble_value (by omega))
  rw [hmultiple, value, abs_sub_mul, abs_sub_mul] at hle
  have heven : (n * 2 ^ (k + 1) : ℤ) % 2 = 0 := by
    rw [pow_succ, ← mul_assoc]
    exact Int.mul_emod_left _ _
  have hsame : (b.significand : ℤ) = n * 2 ^ (k + 1) := by
    refine eq_of_even (by exact_mod_cast h.near) (le_of_mul_le_mul_right hle hunit) (fun htie => ?_) heven
    exact_mod_cast h.even (by exact_mod_cast htie)
  rw [hmultiple, value, ← hsame]
  rfl

theorem nearestDouble_iff (h : b.Rounds x) (hn : n < 2 ^ 52) : b.value = n ↔ NearestDouble x n := by
  constructor
  · intro hvalue
    refine ⟨isDouble_natCast (lt_trans hn (by norm_num)), fun e he => ?_⟩
    rw [← hvalue]
    exact h.abs_sub_value_le he
  · exact h.value_eq hn

end Rounds

/-! ## Whole numbers -/

theorem whole?_eq_some_iff {b : Binary} {n : ℕ} : b.whole? = some n ↔ b.value = n := by
  have hwhole : b.whole? = if b.significand % 2 ^ (-b.scale).toNat = 0 then
      some (b.significand / 2 ^ (-b.scale).toNat * 2 ^ b.scale.toNat) else none := by
    simp [whole?, Nat.shiftLeft_eq]
  have hvalue : b.value = n ↔ b.significand * 2 ^ b.scale.toNat = n * 2 ^ (-b.scale).toNat := by
    rw [value, two_zpow_eq, mul_div_assoc', div_eq_iff (by positivity)]
    exact_mod_cast Iff.rfl
  have hpos : 0 < 2 ^ (-b.scale).toNat := by positivity
  rw [hwhole, hvalue]
  split_ifs with hmod
  · obtain ⟨q, hq⟩ := Nat.dvd_of_mod_eq_zero hmod
    rw [hq, Nat.mul_div_cancel_left q hpos, Option.some_inj, mul_assoc, mul_comm n, Nat.mul_right_inj hpos.ne']
  · -- the scale is negative, so that there is no second power of two
    have hscale : b.scale < 0 := by
      by_contra hscale
      rw [Int.toNat_of_nonpos (by omega), pow_zero, Nat.mod_one] at hmod
      exact hmod rfl
    rw [Int.toNat_of_nonpos hscale.le, pow_zero, mul_one]
    constructor
    · intro h
      cases h
    · intro h
      rw [h, Nat.mul_mod_left] at hmod
      exact absurd rfl hmod

/-- **A quotient is taken for the whole number that is nearest to it.** -/
theorem whole_nearest?_iff (hnum : 0 < num) (hden : 0 < den) {n : ℕ} (hn : n < 2 ^ 52) :
    (nearest? num den).bind whole? = some n ↔ NearestDouble (num / den) n := by
  obtain ⟨b, hb, hsome | ⟨hnone, hscale⟩⟩ := exists_rounds hnum hden
  · rw [hsome, Option.bind_some, whole?_eq_some_iff, hb.nearestDouble_iff hn]
  · rw [hnone, Option.bind_none]
    constructor
    · intro h
      cases h
    · intro h
      exact absurd (hb.scale_neg hn h) (not_lt.2 hscale)

end Binary

/-! ## Decimal fractions -/

theorem nearestDouble_of_tiny {x : ℚ} (hx : 0 ≤ x) (hlt : x < 2 ^ (-1075 : ℤ)) {n : ℕ} :
    NearestDouble x n ↔ n = 0 := by
  have hhalf : (2 : ℚ) ^ (-1075 : ℤ) * 2 = 2 ^ (-1074 : ℤ) := by
    rw [← zpow_add_one₀ (by norm_num)]
    norm_num
  constructor
  · intro h
    by_contra hne
    have hle := h.le 0 isDouble_zero
    have hone : (1 : ℚ) ≤ n := by exact_mod_cast Nat.one_le_iff_ne_zero.2 hne
    have hsmall : (2 : ℚ) ^ (-1074 : ℤ) ≤ 2 ^ (0 : ℤ) := zpow_le_zpow_right₀ (by norm_num) (by norm_num)
    have hfar := neg_abs_le (x - n)
    rw [sub_zero, abs_of_nonneg hx] at hle
    rw [zpow_zero] at hsmall
    linarith
  · rintro rfl
    refine ⟨by simpa using isDouble_zero, fun e he => ?_⟩
    obtain ⟨m, s, -, hs, -, rfl⟩ := he
    rw [Nat.cast_zero, sub_zero, abs_of_nonneg hx]
    by_cases hm : m = 0
    · rw [hm, Int.cast_zero, zero_mul, sub_zero, abs_of_nonneg hx]
    · -- a double that is not zero is at least twice as far from zero
      have hlarge : (2 : ℚ) ^ (-1074 : ℤ) ≤ |(m : ℚ) * 2 ^ s| := by
        have hone : (1 : ℚ) ≤ |(m : ℚ)| := by exact_mod_cast Int.one_le_abs hm
        have hpow : (2 : ℚ) ^ (-1074 : ℤ) ≤ 2 ^ s := zpow_le_zpow_right₀ (by norm_num) hs
        rw [abs_mul, abs_of_pos (by positivity : (0 : ℚ) < 2 ^ s)]
        nlinarith
      have htriangle : |(m : ℚ) * 2 ^ s| ≤ |x| + |x - m * 2 ^ s| := by
        have h := abs_sub_abs_le_abs_sub (m * 2 ^ s : ℚ) x
        rw [abs_sub_comm] at h
        linarith
      rw [abs_of_nonneg hx] at htriangle
      linarith

namespace Decimal

theorem two_pow_le_ten_pow (k : ℕ) : (2 : ℚ) ^ (3 * k) ≤ 10 ^ k := by
  rw [pow_mul]
  exact pow_le_pow_left₀ (by norm_num) (by norm_num) k

theorem two_pow_le_mul {digits : ℕ} (h : digits ≠ 0) (k : ℕ) :
    (2 : ℚ) ^ (digits.log2 + 3 * k) ≤ digits * 10 ^ k := by
  have hdigits : (2 : ℚ) ^ digits.log2 ≤ digits := by exact_mod_cast Nat.log2_self_le h
  rw [pow_add]
  exact mul_le_mul hdigits (two_pow_le_ten_pow k) (by positivity) (by positivity)

theorem div_lt_two_zpow (digits k : ℕ) : (digits / 10 ^ k : ℚ) < 2 ^ ((digits.log2 : ℤ) + 1 - 3 * k) := by
  have hdigits : (digits : ℚ) < 2 ^ (digits.log2 + 1) := by exact_mod_cast Nat.lt_log2_self
  have hpow : (2 : ℚ) ^ ((digits.log2 : ℤ) + 1 - 3 * k) = 2 ^ (digits.log2 + 1) / 2 ^ (3 * k) := by
    rw [zpow_sub₀ (by norm_num)]
    rfl
  rw [hpow]
  exact div_lt_div₀ hdigits (two_pow_le_ten_pow k) (by positivity) (by positivity)

/-- **A decimal fraction is taken for the whole number that is nearest to it.** -/
theorem whole_nearest?_iff (d : Decimal) {n : ℕ} (hn : n < 2 ^ 52) :
    d.nearest?.bind Binary.whole? = some n ↔ NearestDouble d.value n := by
  obtain ⟨digits, exponent⟩ := d
  have hzero : (some (⟨0, 0⟩ : Binary)).bind Binary.whole? = some n ↔ n = 0 := by
    rw [Option.bind_some, Binary.whole?_eq_some_iff, Binary.value]
    simp [eq_comm]
  unfold nearest? value
  simp only
  by_cases hdigits : digits = 0
  · rw [if_pos hdigits, hzero, hdigits, Nat.cast_zero, zero_mul, nearestDouble_of_tiny le_rfl (by positivity)]
  rw [if_neg hdigits]
  have hpos : 0 < digits := Nat.pos_of_ne_zero hdigits
  by_cases hsign : 0 ≤ exponent
  · obtain ⟨k, rfl⟩ := Int.eq_ofNat_of_zero_le hsign
    rw [if_pos hsign, Int.natAbs_natCast, zpow_natCast]
    split_ifs with hlarge
    · have hvalue : (2 : ℚ) ^ 52 ≤ digits * 10 ^ k :=
        (pow_le_pow_right₀ (by norm_num) (by omega)).trans (two_pow_le_mul hdigits k)
      exact iff_of_false (by simp) fun h => absurd hvalue (not_le.2 (h.lt_of_natCast hn))
    · have hvalue : ((digits * Nat.pow 10 k : ℕ) / (1 : ℕ) : ℚ) = digits * 10 ^ k := by simp
      rw [← hvalue]
      exact Binary.whole_nearest?_iff (Nat.mul_pos hpos (Nat.pow_pos (by norm_num))) Nat.one_pos hn
  · obtain ⟨k, hk⟩ := Int.eq_ofNat_of_zero_le (by omega : 0 ≤ -exponent)
    obtain rfl : exponent = -k := by omega
    rw [if_neg hsign, Int.natAbs_neg, Int.natAbs_natCast, zpow_neg, zpow_natCast, ← div_eq_mul_inv]
    split_ifs with hsmall
    · have hvalue : (digits / 10 ^ k : ℚ) < 2 ^ (-1075 : ℤ) :=
        (div_lt_two_zpow digits k).trans_le (zpow_le_zpow_right₀ (by norm_num) (by omega))
      rw [hzero, nearestDouble_of_tiny (by positivity) hvalue]
    · have hvalue : (digits / (Nat.pow 10 k : ℕ) : ℚ) = digits / 10 ^ k := by simp
      rw [← hvalue]
      exact Binary.whole_nearest?_iff hpos (Nat.pow_pos (by norm_num)) hn

end Decimal

/-! ## How near -/

/-- A number that may be written is nearest to fractions only that are at most `2 ^ (-39)` away. -/
theorem NearestDouble.abs_sub_le {x : ℚ} {n : ℕ} (h : NearestDouble x n) (hn : n ≤ 32767) :
    |x - n| ≤ 2 ^ (-39 : ℤ) := by
  -- on both sides there are doubles that are twice as far away
  have hnear : ∀ c : ℤ, |c| ≤ 1 → |x - n| ≤ |x - (n + 2 * c * 2 ^ (-39 : ℤ))| := by
    intro c hc
    have hbounds := abs_le.1 hc
    refine h.le _ ⟨n * 2 ^ 38 + c, -38, abs_lt.2 (by omega), by norm_num, by norm_num, ?_⟩
    push_cast
    norm_num
    ring
  have habove := hnear 1 (by norm_num)
  have hbelow := hnear (-1) (by norm_num)
  push_cast at habove hbelow
  have hunit : (0 : ℚ) < 2 ^ (-39 : ℤ) := by positivity
  generalize (2 : ℚ) ^ (-39 : ℤ) = u at *
  by_cases hx : (n : ℚ) ≤ x
  · rw [abs_of_nonneg (sub_nonneg.2 hx)] at habove ⊢
    rcases abs_cases (x - (n + 2 * 1 * u)) with ⟨habs, -⟩ | ⟨habs, -⟩ <;> linarith
  · rw [abs_of_neg (by linarith)] at hbelow ⊢
    rcases abs_cases (x - (n + 2 * -1 * u)) with ⟨habs, -⟩ | ⟨habs, -⟩ <;> linarith

/-- Of the fractions with at most eleven decimal places, a number that may be written is nearest to itself only. -/
theorem NearestDouble.eq_of_places {x : ℚ} {n : ℕ} (h : NearestDouble x n) (hn : n ≤ 32767) {k : ℤ}
    (hk : x * 10 ^ 11 = k) : x = n := by
  have hscaled : |(k : ℚ) - (n * 10 ^ 11 : ℤ)| < 1 := by
    have hdiff : (k : ℚ) - (n * 10 ^ 11 : ℤ) = (x - n) * 10 ^ 11 := by
      rw [← hk]
      push_cast
      ring
    rw [hdiff, abs_mul, abs_of_pos (by norm_num : (0 : ℚ) < 10 ^ 11)]
    calc |x - n| * 10 ^ 11 ≤ 2 ^ (-39 : ℤ) * 10 ^ 11 := by
          have := h.abs_sub_le hn
          gcongr
      _ < 1 := by norm_num
  have hzero : k - n * 10 ^ 11 = 0 := Int.abs_lt_one_iff.1 (by exact_mod_cast hscaled)
  have hk' : x * 10 ^ 11 = n * 10 ^ 11 := by
    rw [hk, sub_eq_zero.1 hzero]
    push_cast
    ring
  exact mul_right_cancel₀ (by norm_num) hk'

end Abcout.Text
