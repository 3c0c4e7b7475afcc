import LispBridge.Proofs.Number.Numeral
import LispBridge.Proofs.Number.Rounding

/-!
# Shortest digits read back

A decimal that rounds to a number is `Near` it. The digits that a search of the grids ends with are
near the number, with the zeros at their end or without (`Decimal.near_shortest`), and what is near
a finite number is read as that number (`Decimal.Near.toBinary64_eq`). That the search finds
digits within its fuel is not needed: where it does not, it ends with the exact decimal.
-/

namespace LispBridge

variable {x : Binary64} {d : Decimal}

theorem digitCount_le_iff {n k : Nat} : digitCount n ≤ k ↔ n < 10 ^ k := by
  unfold digitCount
  split
  · next hzero => simp [hzero]
  · next hne =>
    rcases k with - | k
    · have hpos : 0 < (Nat.toDigits 10 n).length := Nat.length_toDigits_pos
      simp only [Nat.pow_zero]
      omega
    · exact Nat.length_toDigits_le_iff (by decide) (Nat.succ_pos k)

/-- A number with one digit more than a power of ten has zeros is not below it. -/
theorem exists_digitCount_eq_succ {n : Nat} (h : n ≠ 0) :
    ∃ count, digitCount n = count + 1 ∧ 10 ^ count ≤ n := by
  obtain ⟨count, hcount⟩ : ∃ count, digitCount n = count + 1 := by
    refine Nat.exists_eq_succ_of_ne_zero fun hcount => h ?_
    simpa using digitCount_le_iff.mp hcount.le
  refine ⟨count, hcount, ?_⟩
  by_contra hlt
  have hle := digitCount_le_iff.mpr (Nat.lt_of_not_le hlt)
  omega

namespace Decimal

open Binary64

/-- The decimal has the sign of a number and rounds to its magnitude. -/
structure Near (x : Binary64) (d : Decimal) : Prop where
  sign : d.negative = x.negative
  within : x.Within (d.digits * 10 ^ d.exponent.toNat * one) (10 ^ (-d.exponent).toNat)

/-! ## The search -/

theorem near_of_hits {n : Nat} {exponent : Int} (h : (x.grid exponent).hits n = true) :
    Near x ⟨x.negative, n, exponent⟩ := by
  have hnum : n * (4 * (10 ^ exponent.toNat * one)) = 4 * (n * 10 ^ exponent.toNat * one) := by ring
  refine ⟨rfl, within_iff.mpr ?_⟩
  simp only
  simp only [Grid.hits, grid, ← below.eq_def, Nat.pow_eq, hnum, Nat.sub_mul, Nat.add_mul] at h
  generalize 4 * (n * 10 ^ exponent.toNat * one) = num at h ⊢
  generalize 4 * x.units * 10 ^ (-exponent).toNat = value at h ⊢
  -- A lower end below zero is cut off, which lets no more points in.
  split at h
  · next heven =>
    obtain ⟨hlow, hhigh⟩ : value - _ ≤ num ∧ num ≤ _ := by simpa using h
    exact ⟨by omega, hhigh, .inl (by simpa using heven)⟩
  · obtain ⟨hlow, hhigh⟩ : value - _ < num ∧ num < _ := by simpa using h
    exact ⟨by omega, hhigh.le, .inr ⟨by omega, hhigh⟩⟩

theorem hits_of_pick? {tie : Tie} {g : Grid} {n : Nat} (h : g.pick? tie = some n) :
    g.hits n = true := by
  unfold Grid.pick? at h
  simp only at h
  grind

/-- A unit is a power of two below one, so a power of five over a power of ten. -/
theorem near_exactDecimal (x : Binary64) : Near x x.exactDecimal := by
  obtain ⟨k, hone, hk⟩ : ∃ k, Nat.pow 5 k * one = 10 ^ k ∧ k = 1074 :=
    ⟨1074, by decide +kernel, rfl⟩
  have hnum : x.units * Nat.pow 5 k * 10 ^ (-1074 : Int).toNat * one = x.units * 10 ^ k := by
    have hzero : (-1074 : Int).toNat = 0 := rfl
    rw [hzero, Nat.pow_zero, Nat.mul_one, Nat.mul_assoc, hone]
  have hden : (- -1074 : Int).toNat = k := hk.symm
  rw [exactDecimal, ← hk]
  refine ⟨rfl, ?_⟩
  simp only
  rw [hnum, hden]
  exact Within.exact x (Nat.pow_pos (by decide))

theorem near_shortestFrom (tie : Tie) (x : Binary64) (fuel count : Nat) :
    Near x (x.shortestFrom tie fuel count) := by
  induction fuel generalizing count with
  | zero => exact near_exactDecimal x
  | succ fuel ih =>
    rw [shortestFrom]
    split
    · next hpick => exact near_of_hits (hits_of_pick? hpick)
    · exact ih (count + 1)

namespace Near

/-- A zero moves from the end of the digits into the exponent. -/
theorem tens {negative : Bool} {q : Nat} {exponent : Int}
    (h : Near x ⟨negative, 10 * q, exponent⟩) : Near x ⟨negative, q, exponent + 1⟩ := by
  obtain ⟨hsign, hwithin⟩ := h
  refine ⟨hsign, ?_⟩
  simp only at hwithin ⊢
  obtain ⟨k, rfl⟩ | ⟨k, rfl⟩ :
      (∃ k : Nat, exponent = k) ∨ ∃ k : Nat, exponent = -(k + 1 : Nat) := by
    by_cases hpos : 0 ≤ exponent
    · exact .inl ⟨exponent.toNat, by omega⟩
    · exact .inr ⟨(-exponent).toNat - 1, by omega⟩
  · have hnum : 10 * q * 10 ^ k * one = q * 10 ^ (k + 1) * one := by ring
    have hplus : ((k : Int) + 1).toNat = k + 1 := by omega
    have hminus : (-((k : Int) + 1)).toNat = (-(k : Int)).toNat := by omega
    rwa [hplus, hminus, ← hnum]
  · have hplus : (-((k + 1 : Nat) : Int) + 1).toNat = 0 := by omega
    have hplus' : (-((k + 1 : Nat) : Int)).toNat = 0 := by omega
    have hminus : (-(-((k + 1 : Nat) : Int) + 1)).toNat = k := by omega
    have hminus' : (- -((k + 1 : Nat) : Int)).toNat = k + 1 := by omega
    rw [hplus', hminus', Nat.pow_succ', Nat.mul_assoc, Nat.mul_assoc,
      Within.mul_iff (by decide), ← Nat.mul_assoc] at hwithin
    rwa [hplus, hminus]

theorem normalizeWithin (h : Near x d) (fuel : Nat) : Near x (d.normalizeWithin fuel) := by
  induction fuel generalizing d with
  | zero => exact h
  | succ fuel ih =>
    rw [Decimal.normalizeWithin]
    split
    · next hdigits =>
      have hten : 10 * (d.digits / 10) = d.digits :=
        Nat.mul_div_cancel' (Nat.dvd_of_mod_eq_zero hdigits.2)
      exact ih (tens (hten.symm ▸ h))
    · exact h

end Near

theorem near_shortest (tie : Tie) (h : x.isZero = false) : Near x (shortest tie x) := by
  rw [shortest, if_neg (by simp [h])]
  exact (near_shortestFrom tie x 17 1).normalizeWithin 17

/-- A whole number is near its own digits. -/
theorem near_toInt (hzero : x.isZero = false) (hwhole : x.isWhole = true) :
    Near x ⟨x.toInt < 0, x.toInt.natAbs, 0⟩ := by
  have hmod : x.units % one = 0 := by
    simp only [isWhole, Bool.and_eq_true, beq_iff_eq] at hwhole
    exact hwhole.2
  have hunits : x.units / one * one = x.units := Nat.div_mul_cancel (Nat.dvd_of_mod_eq_zero hmod)
  have hpos : x.units / one ≠ 0 := by
    intro hdiv
    rw [hdiv, Nat.zero_mul] at hunits
    have hgap := Nat.lt_of_lt_of_le x.gap_pos (gap_le_units hzero)
    omega
  have hint : decide (x.toInt < 0) = x.negative ∧ x.toInt.natAbs = x.units / one := by
    simp only [toInt, ← Int.natCast_div]
    generalize x.units / one = n at hpos
    cases x.negative with
    | false => exact ⟨by simp, by simp⟩
    | true => exact ⟨decide_eq_true (by rw [if_pos rfl]; omega), by simp⟩
  refine ⟨hint.1, ?_⟩
  have hexact := Within.exact x Nat.one_pos
  simp only [hint.2]
  rwa [Nat.mul_one, ← hunits, ← Nat.mul_one (x.units / one)] at hexact

/-- What a decimal is read as that is written without an exponent. -/
theorem Near.ofText?_positional (h : Near x d) :
    ∃ d', ofText? d.positional = some d' ∧ Near x d' := by
  refine ⟨_, Decimal.ofText?_positional d, ?_⟩
  split
  · next hexponent =>
    obtain ⟨hsign, hwithin⟩ := h
    have hnone : (-d.exponent).toNat = 0 := by omega
    rw [hnone] at hwithin
    exact ⟨hsign, by simpa using hwithin⟩
  · exact h

/-! ## Reading -/

namespace Near

variable (h : Near x d)
include h

theorem digits_ne_zero (hzero : x.isZero = false) : d.digits ≠ 0 := by
  intro hdigits
  have hle := h.within.le_num hzero
  rw [hdigits, Nat.zero_mul, Nat.zero_mul] at hle
  exact absurd hle (Nat.not_le.mpr (Nat.pow_pos (by decide)))

theorem lt_place (hzero : x.isZero = false) : -324 < digitCount d.digits + d.exponent := by
  obtain ⟨k, hone, hk⟩ : ∃ k, 2 * one < 10 ^ k ∧ k = 324 := ⟨324, by decide +kernel, rfl⟩
  have hdigits : d.digits < 10 ^ digitCount d.digits := digitCount_le_iff.mp (Nat.le_refl _)
  have hscale : 0 < 10 ^ d.exponent.toNat := Nat.pow_pos (by decide)
  have hlt : 10 ^ (-d.exponent).toNat < 10 ^ (digitCount d.digits + d.exponent.toNat + k) := by
    calc 10 ^ (-d.exponent).toNat
      _ ≤ 2 * (d.digits * 10 ^ d.exponent.toNat * one) := h.within.le_num hzero
      _ = d.digits * 10 ^ d.exponent.toNat * (2 * one) := Nat.mul_left_comm ..
      _ < 10 ^ digitCount d.digits * 10 ^ d.exponent.toNat * 10 ^ k :=
        Nat.mul_lt_mul'' (Nat.mul_lt_mul_of_pos_right hdigits hscale) hone
      _ = 10 ^ (digitCount d.digits + d.exponent.toNat + k) := by rw [Nat.pow_add, Nat.pow_add]
  have hplaces := (Nat.pow_lt_pow_iff_right (by decide)).mp hlt
  omega

theorem place_le (hzero : x.isZero = false) (hfinite : x.isFinite = true) :
    digitCount d.digits + d.exponent ≤ 309 := by
  obtain ⟨s, k, hshift, hone, hk⟩ :
      ∃ s k, x.shift ≤ s ∧ 2 ^ (53 + s) ≤ 10 ^ k * one ∧ k = 309 :=
    ⟨2045, 309, shift_le hfinite, by decide +kernel, rfl⟩
  obtain ⟨count, hcount, hdigits⟩ := exists_digitCount_eq_succ (h.digits_ne_zero hzero)
  have hlt : 10 ^ (count + d.exponent.toNat) < 10 ^ (k + (-d.exponent).toNat) := by
    refine Nat.lt_of_mul_lt_mul_right (a := one) ?_
    calc 10 ^ (count + d.exponent.toNat) * one
      _ ≤ d.digits * 10 ^ d.exponent.toNat * one := by
        rw [Nat.pow_add]
        exact Nat.mul_le_mul_right one (Nat.mul_le_mul_right _ hdigits)
      _ < 2 ^ (53 + s) * 10 ^ (-d.exponent).toNat :=
        h.within.num_lt hshift (Nat.pow_pos (by decide))
      _ ≤ 10 ^ k * one * 10 ^ (-d.exponent).toNat := Nat.mul_le_mul_right _ hone
      _ = 10 ^ (k + (-d.exponent).toNat) * one := by rw [Nat.pow_add, Nat.mul_right_comm]
  have hplaces := (Nat.pow_lt_pow_iff_right (by decide)).mp hlt
  omega

/-- What is near a finite number is read as that number. -/
theorem toBinary64_eq (hzero : x.isZero = false) (hfinite : x.isFinite = true) :
    d.toBinary64 = x := by
  have hlow := h.lt_place hzero
  have hhigh := h.place_le hzero hfinite
  have hdigits := h.digits_ne_zero hzero
  rw [toBinary64]
  rw [if_neg (by omega), if_neg (by omega), h.sign]
  exact h.within.ofUnits_eq hfinite (Nat.pow_pos (by decide))

end Near

end Decimal

end LispBridge
