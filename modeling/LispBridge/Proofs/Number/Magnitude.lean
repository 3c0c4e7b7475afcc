import LispBridge.Proofs.Number.Shortest
import Mathlib.Algebra.Order.Field.Power
import Mathlib.Data.Rat.Cast.Order
import Mathlib.Tactic.FieldSimp
import Mathlib.Tactic.Linarith
import Mathlib.Tactic.NormNum

/-!
# What numbers stand for

A decimal and a finite binary number stand for rational numbers. A decimal is read as a finite
number just if its magnitude is below the point half a gap above the greatest finite number
(`Decimal.isFinite_toBinary64_iff`), and one that has the value of a finite number is read as that
number (`Decimal.toBinary64_eq_of_value_eq`). All whole numbers of up to fifty-three bits are such
values (`Binary64.exists_value_eq_int`).
-/

namespace LispBridge

/-- One, with a sign. -/
def signed (negative : Bool) : ℚ := if negative then -1 else 1

/-- The number that a decimal stands for. -/
def Decimal.value (d : Decimal) : ℚ := signed d.negative * (d.digits * 10 ^ d.exponent)

/-- The number that a finite binary number stands for. -/
def Binary64.value (x : Binary64) : ℚ := signed x.negative * (x.units / one)

theorem abs_signed (negative : Bool) : |signed negative| = 1 := by
  cases negative <;> simp [signed]

/-! ## Rounding to infinity -/

theorem le_roundEven (num den : Nat) : num / den ≤ roundEven num den := by
  unfold roundEven
  simp only
  split
  · exact Nat.le_succ _
  · exact Nat.le_refl _

/-- What rounds to less than an even number is what lies below the half before it. -/
theorem roundEven_lt_iff {num den n : Nat} (hden : 0 < den) (heven : n % 2 = 0) :
    roundEven num den < n ↔ 2 * num + den < 2 * (n * den) := by
  have hmod : num % den < den := Nat.mod_lt num hden
  have hnum : num / den * den + num % den = num := by rw [Nat.mul_comm, Nat.div_add_mod]
  unfold roundEven
  generalize num / den = q at hnum ⊢
  generalize num % den = r at hnum hmod ⊢
  simp only
  obtain hlt | rfl | hle : q + 1 < n ∨ q + 1 = n ∨ n ≤ q := by omega
  · have hmul := Nat.mul_le_mul_right den hlt
    rw [Nat.succ_mul, Nat.succ_mul] at hmul
    refine iff_of_true ?_ (by omega)
    split <;> omega
  · rw [Nat.add_one_mul q den]
    split <;> omega
  · have hmul := Nat.mul_le_mul_right den hle
    refine iff_of_false ?_ (by omega)
    split <;> omega

namespace Binary64

variable {num den : Nat} {x : Binary64} {negative : Bool}

theorem le_codeOfUnits {shift : Nat} (hden : 0 < den) (h : 2 ^ (shift + 52) * den ≤ num) :
    (shift + 1) * binade ≤ codeOfUnits num den := by
  have hquotient : 2 ^ (shift + 52) ≤ num / den := (Nat.le_div_iff_mul_le hden).mpr h
  have hpos : num / den ≠ 0 := Nat.ne_of_gt (Nat.lt_of_lt_of_le (Nat.two_pow_pos _) hquotient)
  have hlog : shift + 52 ≤ (num / den).log2 := (Nat.le_log2 hpos).mpr hquotient
  obtain ⟨s, hs⟩ : ∃ s, (num / den).log2 = s + 52 := ⟨_, (Nat.sub_add_cancel (by omega)).symm⟩
  have hbinade : binade ≤ num / (den * 2 ^ s) := by
    rw [← Nat.div_div_eq_div_mul, Nat.le_div_iff_mul_le (Nat.two_pow_pos s)]
    have hself := Nat.log2_self_le hpos
    rwa [hs, Nat.pow_add, Nat.mul_comm] at hself
  calc (shift + 1) * binade
    _ ≤ (s + 1) * binade := Nat.mul_le_mul_right _ (by omega)
    _ = s * binade + binade := Nat.succ_mul ..
    _ ≤ s * binade + roundEven num (den * 2 ^ s) :=
      Nat.add_le_add_left (hbinade.trans (le_roundEven ..)) _
    _ = codeOfUnits num den := by rw [codeOfUnits, hs, Nat.add_sub_cancel]; rfl

/-- The point half a gap below a power of two rounds up to it, being even there. -/
theorem codeOfUnits_lt_iff (shift : Nat) (hden : 0 < den) :
    codeOfUnits num den < (shift + 3) * binade ↔
      2 * num + den * 2 ^ (shift + 1) < 2 * (2 * binade * (den * 2 ^ (shift + 1))) := by
  have hlow : 2 ^ (shift + 53) * den = binade * (den * 2 ^ (shift + 1)) := by rw [binade]; ring
  have hhigh : 2 ^ (shift + 54) * den = 2 * (binade * (den * 2 ^ (shift + 1))) := by
    rw [binade, Nat.pow_succ]
    ring
  have hpos : 0 < den * 2 ^ (shift + 1) := Nat.mul_pos hden (Nat.two_pow_pos _)
  rw [Nat.mul_assoc 2 binade]
  obtain hlt | ⟨hle, hlt⟩ | hle : num < 2 ^ (shift + 53) * den ∨
      (2 ^ (shift + 53) * den ≤ num ∧ num < 2 ^ (shift + 54) * den) ∨
      2 ^ (shift + 54) * den ≤ num := by omega
  · have hcode := codeOfUnits_le hden hlt
    have hbinade : (shift + 2) * binade < (shift + 3) * binade :=
      Nat.mul_lt_mul_of_pos_right (Nat.lt_succ_self _) (by decide)
    have hle : den * 2 ^ (shift + 1) ≤ binade * (den * 2 ^ (shift + 1)) :=
      Nat.le_mul_of_pos_left _ (by decide)
    exact iff_of_true (Nat.lt_of_le_of_lt hcode hbinade) (by omega)
  · have htop : (shift + 3) * binade = (shift + 1) * binade + 2 * binade := by
      rw [← Nat.add_mul]
    rw [codeOfUnits_eq hden (.inr hle) hlt, htop, Nat.add_lt_add_iff_left,
      roundEven_lt_iff hpos (by decide), Nat.mul_assoc 2 binade]
  · exact iff_of_false (Nat.not_lt.mpr (le_codeOfUnits hden hle)) (by omega)

theorem isFinite_ofCode_iff {code : Nat} :
    (ofCode negative code).isFinite = true ↔ code < infinityCode := by
  simp [isFinite, ofCode]

/-- A quotient rounds to a finite number just if it is below the point half a gap above the
greatest one. -/
theorem isFinite_ofRatio_iff (hden : 0 < den) :
    (ofRatio negative num den).isFinite = true ↔ num + 2 ^ 970 * den < 2 ^ 1024 * den := by
  -- the powers are kept as variables, for they are large
  obtain ⟨half, hhalf, hgap, htop⟩ : ∃ half, 2 ^ 970 = half ∧
      2 ^ (2044 + 1) = 2 * one * half ∧ 2 ^ 1024 = 2 * (2 * binade) * half :=
    ⟨_, rfl, by decide +kernel, by decide +kernel⟩
  have hinfinity : infinityCode = (2044 + 3) * binade := rfl
  have hone : 0 < 2 * one := Nat.mul_pos (by decide) (by decide +kernel)
  have hleft : 2 * (num * one) + den * (2 * one * half) = 2 * one * (num + half * den) := by ring
  have hright : 2 * (2 * binade * (den * (2 * one * half))) =
      2 * one * (2 * (2 * binade) * half * den) := by ring
  rw [ofRatio, ofUnits, isFinite_ofCode_iff, hinfinity, codeOfUnits_lt_iff 2044 hden, hhalf, hgap,
    htop, hleft, hright, Nat.mul_lt_mul_left hone]

/-! ## Exact values -/

theorem zero_lt_one_units : 0 < one := by decide +kernel

theorem cast_one_ne_zero : (one : ℚ) ≠ 0 := (Nat.cast_pos.mpr zero_lt_one_units).ne'

theorem value_eq_of_units {n : Nat} (h : x.units = n * one) : x.value = signed x.negative * n := by
  rw [value, h, Nat.cast_mul, mul_div_assoc, div_self cast_one_ne_zero, mul_one]

theorem abs_value (x : Binary64) : |x.value| = x.units / one := by
  have hnonneg : (0 : ℚ) ≤ x.units / one := div_nonneg (Nat.cast_nonneg _) (Nat.cast_nonneg _)
  rw [value, abs_mul, abs_signed, one_mul, abs_of_nonneg hnonneg]

/-- A number is given by its sign, its gap and its significand. -/
theorem exists_units_eq_of_le (negative : Bool) {shift n : Nat} (hn : n < 2 * binade)
    (hshift : shift ≤ 2045) (hle : shift = 0 ∨ binade ≤ n) : ∃ x : Binary64,
      x.negative = negative ∧ x.isFinite = true ∧ x.units = n * 2 ^ shift := by
  have hlt : shift * binade + n < infinityCode := by
    unfold infinityCode binade at *
    omega
  have hgap : (shift * binade + n) / binade - 1 = shift := by
    unfold binade at *
    omega
  have hsignificand : (if shift * binade + n < binade then shift * binade + n
      else binade + (shift * binade + n) % binade) = n := by
    unfold binade at *
    split <;> omega
  refine ⟨⟨negative, ⟨shift * binade + n, Nat.lt_trans hlt (by decide)⟩⟩, rfl,
    decide_eq_true hlt, ?_⟩
  simp only [units, significand, gap, hgap, hsignificand, Nat.pow_eq]

/-- A whole number that is short of a significand with the gap is doubled, with half the gap. -/
theorem exists_units_eq (negative : Bool) {shift n : Nat} (hn : n < 2 * binade)
    (hshift : shift ≤ 2045) : ∃ x : Binary64,
      x.negative = negative ∧ x.isFinite = true ∧ x.units = n * 2 ^ shift := by
  induction shift generalizing n with
  | zero => exact exists_units_eq_of_le negative hn hshift (.inl rfl)
  | succ shift ih =>
    by_cases hle : binade ≤ n
    · exact exists_units_eq_of_le negative hn hshift (.inr hle)
    · obtain ⟨x, hnegative, hfinite, hunits⟩ :=
        ih (n := 2 * n) (by omega) (Nat.le_of_succ_le hshift)
      exact ⟨x, hnegative, hfinite, by rw [hunits]; ring⟩

/-- The whole numbers of up to fifty-three bits, and the one after them, are exact. -/
theorem exists_units_eq_mul_one (negative : Bool) {n : Nat} (hn : n ≤ 2 ^ 53) : ∃ x : Binary64,
    x.negative = negative ∧ x.isFinite = true ∧ x.units = n * one := by
  obtain ⟨shift, hone, hshift⟩ : ∃ shift, one = 2 ^ shift ∧ shift ≤ 2044 :=
    ⟨1074, by decide +kernel, by decide⟩
  rw [hone]
  obtain hlt | rfl := Nat.lt_or_eq_of_le hn
  · exact exists_units_eq negative hlt (Nat.le_succ_of_le hshift)
  · obtain ⟨x, hnegative, hfinite, hunits⟩ := exists_units_eq negative
      (by decide : binade < 2 * binade) (Nat.succ_le_succ hshift)
    refine ⟨x, hnegative, hfinite, hunits.trans ?_⟩
    rw [binade, Nat.pow_succ]
    ring

/-- A whole number has the value of a finite number of the same sign if it is not beyond
`2 ^ 53`. -/
theorem exists_value_eq_int {negative : Bool} {i : Int} (hi : |i| ≤ 2 ^ 53)
    (hsign : (i : ℚ) = signed negative * |(i : ℚ)|) :
    ∃ x : Binary64, x.negative = negative ∧ x.isFinite = true ∧ x.value = i := by
  have hle : i.natAbs ≤ 2 ^ 53 := by
    rw [← Int.natCast_natAbs] at hi
    exact_mod_cast hi
  obtain ⟨x, hnegative, hfinite, hunits⟩ := exists_units_eq_mul_one negative hle
  refine ⟨x, hnegative, hfinite, ?_⟩
  rw [hsign, value_eq_of_units hunits, hnegative, Nat.cast_natAbs, Int.cast_abs]

end Binary64

/-! ## Magnitudes of decimals -/

namespace Decimal

open Binary64

variable {d : Decimal} {x : Binary64}

theorem abs_value (d : Decimal) : |d.value| = d.digits * 10 ^ d.exponent := by
  have hpos : (0 : ℚ) ≤ d.digits * 10 ^ d.exponent := by positivity
  rw [value, abs_mul, abs_signed, one_mul, abs_of_nonneg hpos]

theorem value_eq (d : Decimal) : d.value = signed d.negative * |d.value| := by
  rw [abs_value, value]

/-- The magnitude as a quotient of whole numbers. -/
theorem abs_value_eq_div (d : Decimal) : |d.value| =
    (d.digits * 10 ^ d.exponent.toNat : Nat) / (10 ^ (-d.exponent).toNat : Nat) := by
  obtain ⟨n, hn⟩ : ∃ n, n = d.exponent := ⟨_, rfl⟩
  rw [abs_value, ← hn]
  have hsplit : n = (n.toNat : Int) - ((-n).toNat : Int) := by omega
  have hpow : (10 : ℚ) ^ n = 10 ^ n.toNat / 10 ^ (-n).toNat := by
    conv_lhs => rw [hsplit]
    rw [zpow_sub₀ (by norm_num), zpow_natCast, zpow_natCast]
  rw [hpow, mul_div_assoc']
  push_cast
  rfl

theorem abs_value_lt (d : Decimal) : |d.value| < 10 ^ (digitCount d.digits + d.exponent) := by
  have hdigits : d.digits < 10 ^ digitCount d.digits := digitCount_le_iff.mp (Nat.le_refl _)
  have hcast : (d.digits : ℚ) < 10 ^ digitCount d.digits := by exact_mod_cast hdigits
  rw [abs_value, zpow_add₀ (by norm_num), zpow_natCast]
  exact mul_lt_mul_of_pos_right hcast (by positivity)

theorem le_abs_value (h : d.digits ≠ 0) :
    10 ^ (digitCount d.digits + d.exponent - 1) ≤ |d.value| := by
  obtain ⟨count, hcount, hdigits⟩ := exists_digitCount_eq_succ h
  have hcast : (10 : ℚ) ^ count ≤ d.digits := by exact_mod_cast hdigits
  have hexponent : (digitCount d.digits : Int) + d.exponent - 1 = count + d.exponent := by omega
  rw [hexponent, abs_value, zpow_add₀ (by norm_num), zpow_natCast]
  exact mul_le_mul_of_nonneg_right hcast (by positivity)

/-- A decimal is read as a finite number just if it lies below the point half a gap above the
greatest one. -/
theorem isFinite_toBinary64_iff :
    d.toBinary64.isFinite = true ↔ |d.value| < 2 ^ 1024 - 2 ^ 970 := by
  have hlow : (1 : ℚ) + 2 ^ 970 ≤ 2 ^ 1024 := by
    have hcast := (Nat.cast_le (α := ℚ)).mpr (by decide +kernel : 1 + 2 ^ 970 ≤ 2 ^ 1024)
    rwa [Nat.cast_add, Nat.cast_pow, Nat.cast_pow, Nat.cast_one] at hcast
  have hhigh : (2 : ℚ) ^ 1024 ≤ 10 ^ (310 : Int) := by
    have hcast := (Nat.cast_le (α := ℚ)).mpr (by decide +kernel : 2 ^ 1024 ≤ 10 ^ 310)
    rwa [Nat.cast_pow, Nat.cast_pow] at hcast
  have hratio (num den : Nat) : num + 2 ^ 970 * den < 2 ^ 1024 * den ↔
      (num : ℚ) < (2 ^ 1024 - 2 ^ 970) * den := by
    rw [← Nat.cast_lt (α := ℚ), Nat.cast_add, Nat.cast_mul, Nat.cast_mul, Nat.cast_pow,
      Nat.cast_pow, sub_mul, lt_sub_iff_add_lt]
    rfl
  have hhalf : (0 : ℚ) < 2 ^ 970 := by positivity
  have hone : (1 : ℚ) ≤ 10 := by norm_num
  generalize (2 : ℚ) ^ 1024 = top at hlow hhigh hratio ⊢
  generalize (2 : ℚ) ^ 970 = half at hlow hratio hhalf ⊢
  unfold toBinary64
  simp only
  split
  · next hsmall =>
    refine iff_of_true (isFinite_ofCode_iff.mpr (by decide)) ?_
    obtain hdigits | hplace := hsmall
    · rw [abs_value, hdigits, Nat.cast_zero, zero_mul]
      linarith
    · have hvalue := d.abs_value_lt
      have hle := zpow_le_one_of_nonpos₀ hone (by omega : digitCount d.digits + d.exponent ≤ 0)
      linarith
  split
  · next hsmall hlarge =>
    refine iff_of_false (mt isFinite_ofCode_iff.mp (Nat.lt_irrefl _)) ?_
    have hvalue := le_abs_value (not_or.mp hsmall).1
    have hle := zpow_le_zpow_right₀ hone
      (by omega : (310 : Int) ≤ digitCount d.digits + d.exponent - 1)
    linarith
  · have hden : 0 < 10 ^ (-d.exponent).toNat := Nat.pow_pos (by decide)
    rw [abs_value_eq_div, div_lt_iff₀ (Nat.cast_pos.mpr hden), ← hratio]
    exact isFinite_ofRatio_iff hden

/-- A decimal that has the value of a finite number is read as that number. -/
theorem toBinary64_eq_of_value_eq (hfinite : x.isFinite = true) (hsign : d.negative = x.negative)
    (h : d.value = x.value) : d.toBinary64 = x := by
  have hpow : 0 < 10 ^ (-d.exponent).toNat := Nat.pow_pos (by decide)
  have hscale : 0 < 10 ^ d.exponent.toNat := Nat.pow_pos (by decide)
  have hunits : d.digits * 10 ^ d.exponent.toNat * one = x.units * 10 ^ (-d.exponent).toNat := by
    have habs := congrArg abs h
    have hpow' : ((10 ^ (-d.exponent).toNat : Nat) : ℚ) ≠ 0 := (Nat.cast_pos.mpr hpow).ne'
    rw [abs_value_eq_div, Binary64.abs_value, div_eq_div_iff hpow' cast_one_ne_zero,
      ← Nat.cast_mul, ← Nat.cast_mul] at habs
    exact Nat.cast_injective habs
  cases hzero : x.isZero with
  | false =>
    refine Near.toBinary64_eq ⟨hsign, ?_⟩ hzero hfinite
    rw [hunits]
    exact Within.exact x hpow
  | true =>
    have hcode : x.code.val = 0 := by simpa [isZero] using hzero
    have hdigits : d.digits = 0 := by
      have hx : x.units = 0 := by
        rw [units, significand, hcode]
        exact Nat.zero_mul _
      rw [hx, Nat.zero_mul, Nat.mul_assoc] at hunits
      refine (Nat.mul_eq_zero.mp hunits).resolve_right (Nat.ne_of_gt ?_)
      exact Nat.mul_pos hscale zero_lt_one_units
    rw [toBinary64, if_pos (.inl hdigits), hsign]
    obtain ⟨negative, code, hlt⟩ := x
    obtain rfl : code = 0 := hcode
    rfl

end Decimal

end LispBridge
