import LispBridge.Proofs.Chars.Digits
import LispBridge.Proofs.Number.Whole
import LispBridge.Proofs.Value.NormalForm

/-!
# Whole numbers as wire text

Below `NumberText.wholeLimit` a whole number is written as a machine integer, and from there on by
its shortest digits. Up to `2 ^ 53` both ways give the plain numeral of its value, which reads back
as the number: `HostValue.whole_numbers_exact`.
-/

namespace LispBridge

open Chars

variable {x : Binary64} {i : Int} {n : Nat}

/-! ## Plain numerals -/

/-- A minus sign if the number is negative, and its decimal digits without a zero before them. -/
inductive PlainNumeral (i : Int) : List Char → Prop
  | intro {digits : List Char} : digits ≠ [] → Digits 10 digits i.natAbs →
      (digits.head? = some '0' → digits = ['0']) → PlainNumeral i (Decimal.sign (i < 0) ++ digits)

theorem digits_toDigits (n : Nat) : Digits 10 (Nat.toDigits 10 n) n := by
  have hread := natural?_of_isDigit (Nat.toDigits_ne_nil n) (isDigit_toDigits n)
  rw [Nat.ofDigitChars_ten_toDigits] at hread
  exact ((natural?_iff_digits (by decide)).mp hread).2

theorem head?_toDigits_ne_zero (hn : 0 < n) : (Nat.toDigits 10 n).head? ≠ some '0' := by
  induction n using Nat.strongRecOn with
  | ind n ih =>
    rw [Nat.toDigits_eq_if (by decide)]
    split
    · interval_cases n <;> decide
    · rw [List.head?_append_of_ne_nil _ (Nat.toDigits_ne_nil (n / 10))]
      exact ih (n / 10) (by omega) (by omega)

theorem plainNumeral_toString (i : Int) : PlainNumeral i (toString i).toList := by
  rw [Decimal.toList_toString]
  refine .intro (Nat.toDigits_ne_nil _) (digits_toDigits _) fun hhead => ?_
  obtain hzero | hpos := Nat.eq_zero_or_pos i.natAbs
  · rw [hzero, Nat.toDigits_zero]
  · exact absurd hhead (head?_toDigits_ne_zero hpos)

/-! ## Writing and reading -/

namespace NumberText

/-- The gap above `2 ^ 53` is two, so the whole number after it rounds to it as well. -/
theorem positional_shortest_ofInt (hi : |i| = 2 ^ 53) :
    (Decimal.shortest .away (.ofInt i)).positional = (toString i).toList := by
  obtain rfl | rfl : i = 2 ^ 53 ∨ i = -2 ^ 53 := eq_or_eq_neg_of_abs_eq hi
  · decide +kernel
  · decide +kernel

theorem positional_shortest_of_value_eq (hfinite : x.isFinite = true) (h : x.value = i)
    (hzero : i ≠ 0) (hi : |i| ≤ 2 ^ 53) :
    (Decimal.shortest .away x).positional = (toString i).toList := by
  have hnegative := Binary64.negative_eq_of_value_eq h hzero
  obtain hlt | heq := lt_or_eq_of_le hi
  · rw [← Int.natCast_natAbs] at hlt
    rw [Decimal.toList_toString, ← hnegative]
    exact Decimal.positional_shortest (Binary64.units_eq_of_value_eq h) (Int.natAbs_pos.mpr hzero)
      (by exact_mod_cast hlt)
  · rw [← Binary64.ofInt_eq_of_value_eq hfinite h hnegative]
    exact positional_shortest_ofInt heq

/-- Below the limit a number is written as a machine integer, and from there on by its digits. -/
theorem write_of_value_eq (hfinite : x.isFinite = true) (h : x.value = i) (hi : |i| ≤ 2 ^ 53) :
    write x = (toString i).toList := by
  rw [write_of_isFinite hfinite, Binary64.isWhole_of_value_eq hfinite h,
    Binary64.toInt_eq_of_value_eq h]
  split
  · rfl
  · next hlimit =>
    have hzero : i ≠ 0 := by
      rintro rfl
      exact hlimit rfl
    exact positional_shortest_of_value_eq hfinite h hzero hi

end NumberText

theorem Binary64.wireText_of_value_eq (hfinite : x.isFinite = true) (h : x.value = i)
    (hi : |i| ≤ 2 ^ 53) : x.wireText = toString i := by
  rw [wireText, NumberText.write_of_value_eq hfinite h hi, String.ofList_toList]

/-- No whole number is a negative zero. -/
theorem Binary64.dropZeroSign_ofInt (hi : |i| ≤ 2 ^ 53) : (ofInt i).dropZeroSign = ofInt i := by
  obtain ⟨-, hvalue, hnegative⟩ := ofInt_exact hi
  rw [dropZeroSign]
  split
  · next hzero =>
    have hi : i = 0 := by
      by_contra hne
      have hfalse := isZero_eq_false_of_units (units_eq_of_value_eq hvalue) (Int.natAbs_pos.mpr hne)
      rw [hzero] at hfalse
      cases hfalse
    rw [hi]
    rfl
  · rfl

namespace HostValue

/-- A whole number up to `2 ^ 53` is exact as a value, its text is its plain numeral, and the text
decodes to it. All numbers that are written as machine integers, whole and below `10 ^ 15`, are
converted without loss. -/
theorem whole_numbers_exact :
    (∀ i : Int, |i| ≤ 2 ^ 53 →
      let text := (WireValue.ofHost? (some (.number (.ofInt i)))).display
      text = toString i ∧ PlainNumeral i text.toList ∧ ofWire text = .number (.ofInt i) ∧
        (Binary64.ofInt i).isFinite = true ∧ (Binary64.ofInt i).value = i) ∧
    ∀ x : Binary64, x.isFinite = true → (∃ i : Int, x.value = i) → |x.value| < 10 ^ 15 →
      (x.toInt64.toInt : ℚ) = x.value ∧ x.wireText = toString x.toInt64.toInt := by
  refine ⟨fun i hi => ?_, fun x hfinite ⟨i, hvalue⟩ hlt => ?_⟩
  · obtain ⟨hfinite, hvalue, -⟩ := Binary64.ofInt_exact hi
    intro text
    have htext : text = toString i := Binary64.wireText_of_value_eq hfinite hvalue hi
    have hdecode := ofWire_wireText hfinite
    rw [Binary64.dropZeroSign_ofInt hi] at hdecode
    exact ⟨htext, htext ▸ plainNumeral_toString i, hdecode, hfinite, hvalue⟩
  · rw [hvalue] at hlt ⊢
    have hlt : |i| < 10 ^ 15 := by exact_mod_cast hlt
    obtain ⟨hlow, hhigh⟩ := abs_lt.mp hlt
    have hcast := Binary64.toInt_toInt64 hfinite hvalue (by omega) (by omega)
    rw [hcast]
    exact ⟨rfl, Binary64.wireText_of_value_eq hfinite hvalue (hlt.le.trans (by decide))⟩

/-- The least number of sixteen digits, and the greatest one that is written as a machine
integer. -/
theorem whole_numbers_exact_sixteen :
    let text := (WireValue.ofHost? (some (.number (.ofInt (-10 ^ 15))))).display
    text = "-1000000000000000" ∧ ofWire text = .number (.ofInt (-10 ^ 15)) ∧
      (Binary64.ofInt 999999999999999).toInt64.toInt = 999999999999999 := by
  obtain ⟨hnumbers, hcast⟩ := whole_numbers_exact
  obtain ⟨htext, -, hdecode, -⟩ := hnumbers (-10 ^ 15) (by decide)
  obtain ⟨-, -, -, hfinite, hvalue⟩ := hnumbers 999999999999999 (by decide)
  have hexact := (hcast _ hfinite ⟨_, hvalue⟩ (by rw [hvalue]; norm_num)).1
  rw [hvalue] at hexact
  exact ⟨htext, hdecode, Int.cast_injective hexact⟩

end HostValue

end LispBridge
