import LispBridge.Number.Shortest
import Mathlib.Tactic.Ring

/-!
# Numbers that round to a binary number

`Binary64.Within x num den` says that `num / den` units lie in the interval around a positive finite
number that rounds to it. The main lemma is `Within.codeOfUnits_eq`: rounding such a quotient gives
the number's code. The interval is shorter below a power of two, where the code comes about with
another shift.
-/

namespace LispBridge

variable {num den : Nat}

/-- The even one of two nearest neighbours, and else the nearest one. -/
theorem roundEven_eq {n : Nat} (hden : 0 < den) (hlow : 2 * (n * den) ≤ 2 * num + den)
    (hhigh : 2 * num ≤ 2 * (n * den) + den)
    (heven : n % 2 = 0 ∨ 2 * (n * den) < 2 * num + den ∧ 2 * num < 2 * (n * den) + den) :
    roundEven num den = n := by
  have hmod : num % den < den := Nat.mod_lt num hden
  have hnum : num / den * den + num % den = num := by rw [Nat.mul_comm, Nat.div_add_mod]
  have hle : num / den ≤ n := by
    by_contra hlt
    have hmul := Nat.mul_le_mul_right den (Nat.lt_of_not_le hlt)
    rw [Nat.succ_mul] at hmul
    omega
  have hge : n ≤ num / den + 1 := by
    by_contra hlt
    have hmul := Nat.mul_le_mul_right den (Nat.lt_of_not_le hlt)
    rw [Nat.succ_mul, Nat.succ_mul] at hmul
    omega
  have hsucc : (num / den + 1) * den = num / den * den + den := Nat.succ_mul _ _
  rw [roundEven]
  obtain heq | heq : n = num / den ∨ n = num / den + 1 := by omega
  · rw [heq] at hhigh heven ⊢
    rw [if_neg (by omega)]
  · rw [heq, hsucc] at hlow heven
    rw [if_pos (by omega), heq]

theorem roundEven_le {n : Nat} (h : num < n * den) : roundEven num den ≤ n := by
  have hden : 0 < den := Nat.pos_of_mul_pos_left (Nat.zero_lt_of_lt h)
  have hlt : num / den < n := (Nat.div_lt_iff_lt_mul hden).mpr h
  rw [roundEven]
  split <;> omega

namespace Binary64

/-- The shift is told by the binade that the quotient lies in. -/
theorem codeOfUnits_eq {shift : Nat} (hden : 0 < den)
    (hlow : shift = 0 ∨ 2 ^ (shift + 52) * den ≤ num) (hhigh : num < 2 ^ (shift + 53) * den) :
    codeOfUnits num den = shift * binade + roundEven num (den * 2 ^ shift) := by
  have hlt : num / den < 2 ^ (shift + 53) := (Nat.div_lt_iff_lt_mul hden).mpr hhigh
  have hshift : (num / den).log2 - 52 = shift := by
    by_cases hzero : num / den = 0
    · rw [hzero, Nat.log2_zero]
      obtain hs | hle := hlow
      · exact hs.symm
      · have hpos := (Nat.le_div_iff_mul_le hden).mpr hle
        exact absurd hpos (by rw [hzero]; exact Nat.not_le.mpr (Nat.two_pow_pos _))
    · have hlog : (num / den).log2 < shift + 53 := (Nat.log2_lt hzero).mpr hlt
      obtain rfl | hle := hlow
      · omega
      · have hlog' := (Nat.le_log2 hzero).mpr ((Nat.le_div_iff_mul_le hden).mpr hle)
        omega
  rw [codeOfUnits, hshift]
  rfl

theorem codeOfUnits_le {shift : Nat} (hden : 0 < den) (h : num < 2 ^ (shift + 53) * den) :
    codeOfUnits num den ≤ (shift + 2) * binade := by
  have hquotient : num / den < 2 ^ (shift + 53) := (Nat.div_lt_iff_lt_mul hden).mpr h
  generalize hs : (num / den).log2 - 52 = s
  have hlog : (num / den).log2 < s + 53 := by omega
  have hle : s ≤ shift := by
    by_cases hzero : num / den = 0
    · rw [hzero, Nat.log2_zero] at hs
      omega
    · have hlog := (Nat.log2_lt hzero).mpr hquotient
      omega
  have hnum : num < 2 * binade * (den * 2 ^ s) := by
    have hlt : num / den < 2 ^ (s + 53) := Nat.lt_of_lt_of_le Nat.lt_log2_self
      (Nat.pow_le_pow_right (by decide) hlog)
    calc num
      _ < 2 ^ (s + 53) * den := (Nat.div_lt_iff_lt_mul hden).mp hlt
      _ = 2 * binade * (den * 2 ^ s) := by rw [binade]; ring
  have hround := roundEven_le hnum
  calc codeOfUnits num den
    _ = s * binade + roundEven num (den * 2 ^ s) := by rw [codeOfUnits, hs]; rfl
    _ ≤ shift * binade + 2 * binade := Nat.add_le_add (Nat.mul_le_mul_right _ hle) hround
    _ = (shift + 2) * binade := (Nat.add_mul ..).symm

theorem isFinite_ofUnits {negative : Bool} (hden : 0 < den) (h : num < 2 ^ (2044 + 53) * den) :
    (ofUnits negative num den).isFinite = true := by
  have hle := codeOfUnits_le hden h
  have hlt : codeOfUnits num den < infinityCode := by
    unfold infinityCode
    refine Nat.lt_of_le_of_lt hle ?_
    exact Nat.mul_lt_mul_of_pos_right (by decide) (by decide)
  have hcode : (ofUnits negative num den).code.val = codeOfUnits num den :=
    Nat.min_eq_left hlt.le
  simpa only [isFinite, decide_eq_true_eq, hcode] using hlt

/-! ## The shape of a number -/

variable {x : Binary64}

/-- How many times the unit is doubled to give the gap. -/
def shift (x : Binary64) : Nat := x.code.val / binade - 1

theorem gap_eq (x : Binary64) : x.gap = 2 ^ x.shift := rfl

theorem gap_pos (x : Binary64) : 0 < x.gap := Nat.two_pow_pos _

theorem code_eq (x : Binary64) : x.code.val = x.shift * binade + x.significand := by
  unfold shift significand binade
  split <;> omega

theorem significand_lt (x : Binary64) : x.significand < 2 * binade := by
  unfold significand binade
  split <;> omega

theorem binade_le_significand (h : 0 < x.shift) : binade ≤ x.significand := by
  unfold shift at h
  unfold significand
  split
  · next hlt => rw [Nat.div_eq_of_lt hlt] at h; exact absurd h (by decide)
  · exact Nat.le_add_right ..

theorem significand_mod_two (x : Binary64) : x.significand % 2 = x.code.val % 2 := by
  rw [code_eq x]
  unfold binade
  omega

theorem shift_le (h : x.isFinite = true) : x.shift ≤ 2045 := by
  have hlt : x.code.val < infinityCode := by simpa [isFinite] using h
  unfold shift infinityCode binade at *
  omega

theorem significand_pos (h : x.isZero = false) : 0 < x.significand := by
  have hcode : x.code.val ≠ 0 := by simpa [isZero] using h
  refine Nat.pos_of_ne_zero fun hzero => ?_
  by_cases hshift : 0 < x.shift
  · have hle := binade_le_significand hshift
    rw [hzero] at hle
    exact absurd hle (by decide)
  · rw [code_eq x, hzero, Nat.eq_zero_of_not_pos hshift] at hcode
    exact hcode (by decide)

theorem gap_le_units (h : x.isZero = false) : x.gap ≤ x.units :=
  Nat.le_mul_of_pos_left _ (significand_pos h)

theorem units_add_gap_le {s : Nat} (h : x.shift ≤ s) : x.units + x.gap ≤ 2 ^ (53 + s) := by
  calc x.units + x.gap
    _ = (x.significand + 1) * 2 ^ x.shift := (Nat.succ_mul ..).symm
    _ ≤ 2 ^ 53 * 2 ^ s :=
      Nat.mul_le_mul x.significand_lt (Nat.pow_le_pow_right (by decide) h)
    _ = 2 ^ (53 + s) := (Nat.pow_add ..).symm

/-- A quarter of a unit counts one: how far below a number the interval starts that rounds to it. -/
def below (x : Binary64) : Nat :=
  if x.code.val % binade = 0 ∧ binade < x.code.val then x.gap else 2 * x.gap

theorem below_le (x : Binary64) : x.below ≤ 2 * x.gap := by
  unfold below
  split <;> omega

theorem below_pos (x : Binary64) : 0 < x.below := by
  have hgap := x.gap_pos
  unfold below
  split <;> omega

/-! ## The interval around a number -/

/-- So many units lie in the interval that rounds to a number; its ends do if the code is even. -/
structure Within (x : Binary64) (num den : Nat) : Prop where
  low : 4 * x.units * den ≤ 4 * num + x.below * den
  high : 4 * num ≤ 4 * x.units * den + 2 * x.gap * den
  ends : x.code.val % 2 = 0 ∨
    4 * x.units * den < 4 * num + x.below * den ∧ 4 * num < 4 * x.units * den + 2 * x.gap * den

theorem within_iff : x.Within num den ↔ 4 * x.units * den ≤ 4 * num + x.below * den ∧
    4 * num ≤ 4 * x.units * den + 2 * x.gap * den ∧ (x.code.val % 2 = 0 ∨
      4 * x.units * den < 4 * num + x.below * den ∧
        4 * num < 4 * x.units * den + 2 * x.gap * den) :=
  ⟨fun h => ⟨h.low, h.high, h.ends⟩, fun ⟨hlow, hhigh, hends⟩ => ⟨hlow, hhigh, hends⟩⟩

namespace Within

theorem mul_iff {k : Nat} (hk : 0 < k) : x.Within (k * num) (k * den) ↔ x.Within num den := by
  have hleft : ∀ a, a * (k * den) = k * (a * den) := fun a => Nat.mul_left_comm ..
  have hnum : 4 * (k * num) = k * (4 * num) := Nat.mul_left_comm ..
  simp only [within_iff, hleft, hnum, ← Nat.mul_add, Nat.mul_le_mul_left_iff hk,
    Nat.mul_lt_mul_left hk]

/-- A number rounds to itself. -/
theorem exact (x : Binary64) (hden : 0 < den) : x.Within (x.units * den) den := by
  have hbelow := Nat.mul_pos x.below_pos hden
  have hgap := Nat.mul_pos x.gap_pos hden
  have hassoc : 4 * x.units * den = 4 * (x.units * den) := Nat.mul_assoc ..
  have hassoc' : 2 * x.gap * den = 2 * (x.gap * den) := Nat.mul_assoc ..
  exact ⟨by omega, by omega, .inr ⟨by omega, by omega⟩⟩

/-- Where the gap below the number is as wide as the one above, or the quotient is not below it. -/
theorem codeOfUnits_eq_of_le (h : x.Within num den) (hden : 0 < den)
    (hle : x.shift = 0 ∨ 2 ^ (x.shift + 52) * den ≤ num) : codeOfUnits num den = x.code.val := by
  obtain ⟨hlow, hhigh, hends⟩ := h
  have hunits : 4 * x.units * den = 4 * (x.significand * (den * 2 ^ x.shift)) := by
    rw [units, gap_eq]
    ring
  have hgap : x.gap * den = den * 2 ^ x.shift := Nat.mul_comm ..
  have hbelow : x.below * den ≤ 2 * (den * 2 ^ x.shift) := by
    rw [← hgap, ← Nat.mul_assoc]
    exact Nat.mul_le_mul_right den x.below_le
  have htop : x.significand * (den * 2 ^ x.shift) + den * 2 ^ x.shift ≤
      2 ^ (x.shift + 53) * den := by
    have hlt := Nat.mul_le_mul_right (den * 2 ^ x.shift) x.significand_lt
    rw [Nat.succ_mul] at hlt
    calc x.significand * (den * 2 ^ x.shift) + den * 2 ^ x.shift
      _ ≤ 2 * binade * (den * 2 ^ x.shift) := hlt
      _ = 2 ^ (x.shift + 53) * den := by rw [binade]; ring
  have hpos : 0 < den * 2 ^ x.shift := Nat.mul_pos hden (Nat.two_pow_pos _)
  rw [hunits, Nat.mul_assoc 2, hgap] at hhigh
  rw [hunits] at hlow hends
  rw [Nat.mul_assoc 2, hgap] at hends
  have hround : roundEven num (den * 2 ^ x.shift) = x.significand := by
    refine roundEven_eq hpos (by omega) (by omega) (hends.imp ?_ ?_)
    · rw [significand_mod_two]
      exact id
    · omega
  rw [Binary64.codeOfUnits_eq hden hle (by omega), hround, ← code_eq]

/-- Below a power of two the gaps are half as wide. -/
theorem codeOfUnits_eq_of_lt (h : x.Within num den) (hden : 0 < den) (hshift : 0 < x.shift)
    (hlt : num < 2 ^ (x.shift + 52) * den) : codeOfUnits num den = x.code.val := by
  obtain ⟨hlow, -, -⟩ := h
  obtain ⟨s, hs⟩ : ∃ s, x.shift = s + 1 := ⟨x.shift - 1, by omega⟩
  generalize hP : den * 2 ^ s = P
  have hpos : 0 < P := hP ▸ Nat.mul_pos hden (Nat.two_pow_pos _)
  have hunits : 4 * x.units * den = 8 * (x.significand * P) := by
    rw [units, gap_eq, hs, ← hP]
    ring
  have hgap : x.gap * den = 2 * P := by
    rw [gap_eq, hs, ← hP]
    ring
  have hbelow : x.below * den ≤ 2 * (x.gap * den) := by
    rw [← Nat.mul_assoc]
    exact Nat.mul_le_mul_right den x.below_le
  have htop : 2 ^ (x.shift + 52) * den = 2 * (binade * P) := by
    rw [hs, ← hP, binade]
    ring
  have hhalf : 2 ^ (s + 52) * den = binade * P := by
    rw [← hP, binade]
    ring
  have hsignificand : x.significand = binade := by
    refine Nat.le_antisymm (Nat.le_of_lt_succ ?_) (binade_le_significand hshift)
    refine Nat.lt_of_mul_lt_mul_right (a := P) ?_
    rw [Nat.succ_mul]
    omega
  have hcode : x.code.val = x.shift * binade + binade := hsignificand ▸ code_eq x
  have hbelow : x.below = x.gap := by
    refine if_pos ⟨?_, ?_⟩
    · rw [hcode, ← Nat.succ_mul, Nat.mul_mod_left]
    · rw [hcode]
      exact Nat.lt_add_of_pos_left (Nat.mul_pos hshift (by decide))
  rw [hunits, hsignificand, hbelow, hgap] at hlow
  have hP_le : P ≤ binade * P := Nat.le_mul_of_pos_left P (by decide)
  have hround : roundEven num P = 2 * binade := by
    refine roundEven_eq hpos ?_ ?_ (.inl (by decide))
    · rw [Nat.mul_assoc]
      omega
    · rw [Nat.mul_assoc]
      omega
  have hnext : 2 ^ (s + 53) * den = 2 * (binade * P) := by
    rw [← hhalf]
    ring
  have hle : s = 0 ∨ 2 ^ (s + 52) * den ≤ num := .inr (by omega)
  rw [Binary64.codeOfUnits_eq hden hle (by omega), hP, hround, hcode, hs]
  ring

theorem codeOfUnits_eq (h : x.Within num den) (hden : 0 < den) :
    codeOfUnits num den = x.code.val := by
  by_cases hle : x.shift = 0 ∨ 2 ^ (x.shift + 52) * den ≤ num
  · exact h.codeOfUnits_eq_of_le hden hle
  · obtain ⟨hshift, hlt⟩ := not_or.mp hle
    exact h.codeOfUnits_eq_of_lt hden (Nat.pos_of_ne_zero hshift) (Nat.lt_of_not_le hlt)

theorem le_num (h : x.Within num den) (hzero : x.isZero = false) : den ≤ 2 * num := by
  have hgap : x.gap * den ≤ x.units * den := Nat.mul_le_mul_right den (gap_le_units hzero)
  have hbelow : x.below * den ≤ 2 * (x.gap * den) := by
    rw [← Nat.mul_assoc]
    exact Nat.mul_le_mul_right den x.below_le
  have hunits : den ≤ x.units * den :=
    Nat.le_mul_of_pos_left den (Nat.lt_of_lt_of_le x.gap_pos (gap_le_units hzero))
  have hlow := h.low
  rw [Nat.mul_assoc] at hlow
  omega

theorem num_lt {s : Nat} (h : x.Within num den) (hshift : x.shift ≤ s) (hden : 0 < den) :
    num < 2 ^ (53 + s) * den := by
  have htop := Nat.mul_le_mul_right den (units_add_gap_le hshift)
  have hgap := Nat.mul_pos x.gap_pos hden
  have hhigh := h.high
  rw [Nat.mul_assoc, Nat.mul_assoc] at hhigh
  rw [Nat.add_mul] at htop
  omega

theorem ofUnits_eq (h : x.Within num den) (hfinite : x.isFinite = true) (hden : 0 < den) :
    ofUnits x.negative num den = x := by
  have hlt : x.code.val < infinityCode := by simpa [isFinite] using hfinite
  obtain ⟨negative, code⟩ := x
  rw [ofUnits, ofCode, mk.injEq, Fin.ext_iff, h.codeOfUnits_eq hden]
  exact ⟨rfl, Nat.min_eq_left hlt.le⟩

end Within

end Binary64

end LispBridge
