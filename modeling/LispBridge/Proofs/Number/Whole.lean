import LispBridge.Proofs.Number.Magnitude

/-!
# Whole numbers

A finite number whose value is whole is given by that value but for the sign of a zero. Its digits
before the point are found before a search for digits goes beyond it, and they are all its digits
where the gap to the next number is not above one (`Decimal.positional_shortest`). The conversion to
a machine integer is exact where it does not leave the range (`Binary64.toInt_toInt64`).
-/

namespace LispBridge

open Chars

variable {x : Binary64} {d : Decimal} {i : Int} {n : Nat} {tie : Tie}

/-! ## Zeros at the end of a numeral -/

theorem Nat.toDigits_mul_ten (hn : 0 < n) :
    Nat.toDigits 10 (n * 10) = Nat.toDigits 10 n ++ ['0'] := by
  rw [Nat.mul_comm, ← Nat.add_zero (10 * n),
    ← Nat.toDigits_append_toDigits (by decide) hn (by decide)]
  rfl

theorem Nat.toDigits_mul_ten_pow (hn : 0 < n) (k : Nat) :
    Nat.toDigits 10 (n * 10 ^ k) = Nat.toDigits 10 n ++ List.replicate k '0' := by
  induction k with
  | zero => simp
  | succ k ih =>
    have hpos : 0 < n * 10 ^ k := Nat.mul_pos hn (Nat.pow_pos (by decide))
    rw [Nat.pow_succ, ← Nat.mul_assoc, toDigits_mul_ten hpos, ih, List.append_assoc,
      List.replicate_succ']

theorem digitCount_mul_ten_pow (hn : 0 < n) (k : Nat) :
    digitCount (n * 10 ^ k) = digitCount n + k := by
  have hpos : 0 < n * 10 ^ k := Nat.mul_pos hn (Nat.pow_pos (by decide))
  rw [digitCount, if_neg hpos.ne', digitCount, if_neg hn.ne', Nat.toDigits_mul_ten_pow hn,
    List.length_append, List.length_replicate]

/-! ## Numbers with a whole value -/

namespace Binary64

theorem units_eq_of_value_eq (h : x.value = i) : x.units = i.natAbs * one := by
  have habs := x.abs_value
  rw [h, eq_div_iff cast_one_ne_zero, ← Int.cast_abs, ← Nat.cast_natAbs, ← Nat.cast_mul] at habs
  exact (Nat.cast_injective habs).symm

theorem toInt_eq_of_units (h : x.units = n * one) :
    x.toInt = if x.negative then -(n : Int) else n := by
  rw [toInt, h, ← Int.natCast_div, Nat.mul_div_cancel _ zero_lt_one_units]

theorem toInt_eq_of_value_eq (h : x.value = i) : x.toInt = i := by
  have hunits := units_eq_of_value_eq h
  rw [value_eq_of_units hunits] at h
  rw [toInt_eq_of_units hunits]
  refine Int.cast_injective (α := ℚ) ?_
  rw [← h, signed]
  cases x.negative <;> simp

theorem isWhole_of_value_eq (hfinite : x.isFinite = true) (h : x.value = i) :
    x.isWhole = true := by
  rw [isWhole, hfinite, units_eq_of_value_eq h, Nat.mul_mod_left]
  rfl

theorem negative_eq_of_value_eq (h : x.value = i) (hi : i ≠ 0) :
    x.negative = decide (i < 0) := by
  have hint := (toInt_eq_of_units (units_eq_of_value_eq h)).symm.trans (toInt_eq_of_value_eq h)
  cases hnegative : x.negative with
  | true =>
    rw [hnegative, if_pos rfl] at hint
    exact (decide_eq_true (by omega)).symm
  | false =>
    rw [hnegative, if_neg Bool.false_ne_true] at hint
    exact (decide_eq_false (by omega)).symm

/-- What is exact is not rounded. -/
theorem ofInt_eq_of_value_eq (hfinite : x.isFinite = true) (h : x.value = i)
    (hnegative : x.negative = decide (i < 0)) : ofInt i = x := by
  have hexact := (Within.exact x Nat.one_pos).ofUnits_eq hfinite Nat.one_pos
  rwa [Nat.mul_one, hnegative, units_eq_of_value_eq h] at hexact

theorem int_eq_signed_mul_abs (i : Int) : (i : ℚ) = signed (i < 0) * |(i : ℚ)| := by
  rw [signed]
  by_cases hi : i < 0
  · have hcast : (i : ℚ) < 0 := Int.cast_lt_zero.mpr hi
    rw [if_pos (decide_eq_true hi), abs_of_neg hcast]
    ring
  · have hcast : (0 : ℚ) ≤ i := Int.cast_nonneg (Int.not_lt.mp hi)
    rw [if_neg (by simpa using hi), abs_of_nonneg hcast, one_mul]

theorem ofInt_exact (hi : |i| ≤ 2 ^ 53) : (ofInt i).isFinite = true ∧ (ofInt i).value = i ∧
    (ofInt i).negative = decide (i < 0) := by
  obtain ⟨x, hnegative, hfinite, hvalue⟩ := exists_value_eq_int hi (int_eq_signed_mul_abs i)
  rw [ofInt_eq_of_value_eq hfinite hvalue hnegative]
  exact ⟨hfinite, hvalue, hnegative⟩

/-! ## Machine integers -/

/-- The whole part of a number as an integer of 64 bits. What is out of their range becomes the
nearer end of it, and what is not a number becomes zero. -/
def toInt64 (x : Binary64) : Int64 :=
  if x.isFinite then .ofIntClamp x.toInt
  else if x.isNaN then 0
  else if x.negative then .minValue
  else .maxValue

theorem toInt_toInt64 (hfinite : x.isFinite = true) (h : x.value = i) (hlow : -2 ^ 63 ≤ i)
    (hhigh : i < 2 ^ 63) : x.toInt64.toInt = i := by
  rw [toInt64, if_pos hfinite, toInt_eq_of_value_eq h]
  exact Int64.toInt_ofIntClamp hlow (Int.le_of_lt_add_one hhigh)

/-! ## The search for digits -/

theorem gap_le_one_of_lt (hunits : x.units = n * one) (hlt : n < 2 ^ 53) : x.gap ≤ one := by
  obtain ⟨shift, hone⟩ : ∃ shift, one = 2 ^ shift := ⟨1074, by decide +kernel⟩
  by_contra hgap
  rw [gap_eq, hone, Nat.not_le, Nat.pow_lt_pow_iff_right (by decide)] at hgap
  have hpow : binade * 2 ^ (shift + 1) = 2 ^ 53 * 2 ^ shift := by rw [binade]; ring
  have hle : binade * 2 ^ (shift + 1) ≤ x.units :=
    Nat.mul_le_mul (binade_le_significand (Nat.zero_lt_of_lt hgap))
      (Nat.pow_le_pow_right (by decide) hgap)
  rw [hunits, hone, hpow] at hle
  exact absurd (Nat.le_of_mul_le_mul_right hle (Nat.two_pow_pos shift)) (Nat.not_le.mpr hlt)

/-- A number is found on a grid that it lies on. -/
theorem hits_of_eq_value {exponent : Int} (hzero : x.isZero = false)
    (h : n * (x.grid exponent).step = (x.grid exponent).value) :
    (x.grid exponent).hits n = true := by
  have hscale : 0 < Nat.pow 10 (-exponent).toNat := Nat.pow_pos (by decide)
  have hunits : 0 < x.units := Nat.lt_of_lt_of_le x.gap_pos (gap_le_units hzero)
  have hbelow := x.below_pos
  have hgap := x.gap_pos
  have hlow : (x.grid exponent).low < (x.grid exponent).value := by
    simp only [grid, ← below.eq_def]
    exact Nat.mul_lt_mul_of_pos_right (by omega) hscale
  have hhigh : (x.grid exponent).value < (x.grid exponent).high := by
    simp only [grid]
    exact Nat.mul_lt_mul_of_pos_right (by omega) hscale
  rw [Grid.hits, h]
  split
  · simpa using ⟨hlow.le, hhigh.le⟩
  · simpa using ⟨hlow, hhigh⟩

theorem pick?_ne_none {g : Grid} (h : g.hits (g.value / g.step) = true) : g.pick? tie ≠ none := by
  unfold Grid.pick?
  grind

section
variable (hunits : x.units = n * one) (hn : 0 < n)
include hunits hn

theorem isZero_eq_false_of_units : x.isZero = false := by
  have hpos : 0 < x.units := hunits ▸ Nat.mul_pos hn zero_lt_one_units
  by_contra hzero
  have hcode : x.code.val = 0 := by simpa [isZero] using hzero
  rw [units, significand, hcode] at hpos
  simp [binade] at hpos

/-- A whole number has as many places before its point as digits. -/
theorem place_eq_digitCount : x.place = digitCount n := by
  unfold place
  -- the power is kept as a variable, for it is large
  generalize hpow : Nat.pow 10 400 = scale
  obtain ⟨k, hk, rfl⟩ : ∃ k, k = 400 ∧ Nat.pow 10 k = scale := ⟨400, rfl, hpow⟩
  have hscale : n * one * Nat.pow 10 k / one = n * 10 ^ k := by
    rw [Nat.mul_right_comm, Nat.mul_div_cancel _ zero_lt_one_units]
    rfl
  rw [hunits, hscale, digitCount_mul_ten_pow hn]
  omega

/-- The search for the digits of a whole number does not go beyond its point, for it lies on the
grid of the whole numbers. -/
theorem exponent_shortestFrom_nonneg {fuel count : Nat} (hcount : count ≤ x.place)
    (hfuel : x.place - count < fuel) : 0 ≤ (x.shortestFrom tie fuel count).exponent := by
  induction fuel generalizing count with
  | zero => omega
  | succ fuel ih =>
    rw [shortestFrom]
    split
    · exact Int.sub_nonneg_of_le hcount
    · next hnone =>
      refine ih ?_ (by omega)
      by_contra hlt
      have hexponent : x.place - count = 0 := by omega
      rw [hexponent] at hnone
      have hstep : (x.grid 0).step = 4 * one := by simp [grid]
      have hvalue : n * (x.grid 0).step = (x.grid 0).value := by
        simp only [grid, hunits]
        simp [Nat.mul_left_comm]
      refine pick?_ne_none (hits_of_eq_value (isZero_eq_false_of_units hunits hn) ?_) hnone
      rw [← hvalue, Nat.mul_div_cancel]
      exact hstep ▸ Nat.mul_pos (by decide) zero_lt_one_units

end

end Binary64

/-! ## The digits of a whole number -/

namespace Decimal

open Binary64

theorem le_exponent_normalizeWithin (d : Decimal) (fuel : Nat) :
    d.exponent ≤ (d.normalizeWithin fuel).exponent := by
  induction fuel generalizing d with
  | zero => exact Int.le_refl _
  | succ fuel ih =>
    rw [Decimal.normalizeWithin]
    split
    · exact (Int.le_add_one (Int.le_refl _)).trans (ih _)
    · exact Int.le_refl _

theorem exponent_shortest_nonneg (hunits : x.units = n * one) (hn : 0 < n)
    (hle : digitCount n ≤ 17) : 0 ≤ (shortest tie x).exponent := by
  have hplace := place_eq_digitCount hunits hn
  have hcount : digitCount n ≠ 0 := by
    rw [digitCount, if_neg hn.ne']
    exact Nat.length_toDigits_pos.ne'
  rw [shortest, if_neg (by simp [isZero_eq_false_of_units hunits hn])]
  refine (exponent_shortestFrom_nonneg hunits hn ?_ ?_).trans (le_exponent_normalizeWithin _ 17)
  · omega
  · omega

/-- Where the gap is not above one, no other whole number rounds to a whole number. -/
theorem Near.eq_of_gap_le (h : d.Near x) (hexponent : 0 ≤ d.exponent) (hunits : x.units = n * one)
    (hgap : x.gap ≤ one) : d.digits * 10 ^ d.exponent.toNat = n := by
  have hnone : (-d.exponent).toNat = 0 := by omega
  obtain ⟨-, hwithin⟩ := h
  rw [hnone] at hwithin
  obtain ⟨hlow, hhigh, -⟩ := hwithin
  have hbelow := x.below_le
  have hone := zero_lt_one_units
  generalize d.digits * 10 ^ d.exponent.toNat = m at hlow hhigh ⊢
  simp only [hunits, Nat.pow_zero, Nat.mul_one] at hlow hhigh
  generalize one = one at *
  obtain hlt | heq | hlt := Nat.lt_trichotomy m n
  · have hmul := Nat.mul_le_mul_right one hlt
    rw [Nat.succ_mul] at hmul
    omega
  · exact heq
  · have hmul := Nat.mul_le_mul_right one hlt
    rw [Nat.succ_mul] at hmul
    omega

theorem positional_eq (hdigits : 0 < d.digits) (hexponent : 0 ≤ d.exponent) : d.positional =
    sign d.negative ++ Nat.toDigits 10 (d.digits * 10 ^ d.exponent.toNat) := by
  rw [Nat.toDigits_mul_ten_pow hdigits]
  unfold positional
  simp only [if_pos hexponent]
  rfl

/-- The shortest digits of a whole number below `2 ^ 53`, with the zeros that its exponent asks for,
are all its digits. -/
theorem positional_shortest (hunits : x.units = n * one) (hn : 0 < n) (hlt : n < 2 ^ 53) :
    (shortest tie x).positional = sign x.negative ++ Nat.toDigits 10 n := by
  have hcount : digitCount n ≤ 17 := digitCount_le_iff.mpr (hlt.trans (by decide))
  have hzero := isZero_eq_false_of_units hunits hn
  have hnear := near_shortest tie hzero
  have hexponent : 0 ≤ (shortest tie x).exponent := exponent_shortest_nonneg hunits hn hcount
  have hdigits := hnear.eq_of_gap_le hexponent hunits (gap_le_one_of_lt hunits hlt)
  rw [positional_eq (Nat.pos_of_ne_zero (hnear.digits_ne_zero hzero)) hexponent, hnear.sign,
    hdigits]

end Decimal

end LispBridge
