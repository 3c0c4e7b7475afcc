import LispBridge.Number.Shortest
import LispBridge.Proofs.Chars.Lines
import Mathlib.Algebra.Group.Nat.Defs
import Mathlib.Data.List.TakeWhile

/-!
# Decimal numerals read back

A decimal that is written without an exponent is a sign, digits, and at most one point among them
(`Decimal.isMark_positional`). Reading it gives the decimal itself, or, where its exponent asks for
zeros at the end, its value as a whole number (`Decimal.ofText?_positional`).
-/

namespace LispBridge

open Chars

/-! ## Digits -/

theorem Chars.digit?_of_isDigit {c : Char} (h : c.isDigit = true) :
    digit? 10 c = some (c.toNat - '0'.toNat) := by
  simp only [Char.isDigit, Bool.and_eq_true, decide_eq_true_eq, ge_iff_le] at h
  have hrange : '0' ≤ c ∧ c ≤ '9' := h
  have hle : c.toNat ≤ 57 := UInt32.le_iff_toNat_le.mp h.2
  have hlt : c.toNat - '0'.toNat < 10 := Nat.sub_lt_left_of_lt_add
    (UInt32.le_iff_toNat_le.mp h.1) (Nat.lt_succ_of_le hle)
  rw [digit?, if_pos hrange]
  simp only [Option.filter, decide_eq_true_eq, if_pos hlt]

theorem Chars.natural?_of_isDigit {cs : List Char} (hne : cs ≠ [])
    (h : ∀ c ∈ cs, c.isDigit = true) : natural? 10 cs = some (Nat.ofDigitChars 10 cs 0) := by
  have hdigits : cs.mapM (digit? 10) = some (cs.map fun c => c.toNat - '0'.toNat) := by
    clear hne
    induction cs with
    | nil => rfl
    | cons c cs ih =>
      obtain ⟨hc, h⟩ := List.forall_mem_cons.mp h
      rw [List.mapM_cons, digit?_of_isDigit hc, ih h]
      rfl
  rw [natural?, if_neg (by simpa using hne), hdigits, Option.map_some, ofDigits, List.foldl_map]
  rfl

theorem Chars.isDigit_of_digit? {c : Char} {d : Nat} (h : digit? 10 c = some d) :
    c.isDigit = true := by
  by_cases hrange : '0' ≤ c ∧ c ≤ '9'
  · simp only [Char.isDigit, Bool.and_eq_true, decide_eq_true_eq, ge_iff_le]
    exact hrange
  · -- letters are digits above nine
    rw [digit?, if_neg hrange, Option.filter_eq_some_iff, decide_eq_true_eq] at h
    obtain ⟨h, hlt⟩ := h
    split at h
    · cases h
      omega
    split at h <;> cases h
    omega

theorem Chars.isDigit_of_mapM {cs : List Char} {ds : List Nat}
    (h : cs.mapM (digit? 10) = some ds) : ∀ c ∈ cs, c.isDigit = true := by
  induction cs generalizing ds with
  | nil => nofun
  | cons c cs ih =>
    rw [List.mapM_cons, Option.bind_eq_bind, Option.bind_eq_some_iff] at h
    obtain ⟨d, hd, h⟩ := h
    rw [Option.bind_eq_bind, Option.bind_eq_some_iff] at h
    obtain ⟨ds, hds, -⟩ := h
    exact List.forall_mem_cons.mpr ⟨isDigit_of_digit? hd, ih hds⟩

theorem Chars.natural?_eq_some_iff {cs : List Char} {n : Nat} : natural? 10 cs = some n ↔
    (cs ≠ [] ∧ ∀ c ∈ cs, c.isDigit = true) ∧ Nat.ofDigitChars 10 cs 0 = n := by
  constructor
  · intro h
    have hread := h
    rw [natural?, Option.ite_none_left_eq_some, Option.map_eq_some_iff] at hread
    obtain ⟨hne, ds, hds, -⟩ := hread
    have hne : cs ≠ [] := by simpa using hne
    have hall := isDigit_of_mapM hds
    rw [natural?_of_isDigit hne hall, Option.some.injEq] at h
    exact ⟨⟨hne, hall⟩, h⟩
  · rintro ⟨⟨hne, hall⟩, rfl⟩
    exact natural?_of_isDigit hne hall

theorem Chars.unsigned?_of_isDigit {bound : Nat} {cs : List Char} (hne : cs ≠ [])
    (h : ∀ c ∈ cs, c.isDigit = true) :
    unsigned? bound cs = (some (Nat.ofDigitChars 10 cs 0)).filter (· < bound) := by
  unfold unsigned?
  split
  · next rest => cases h '+' List.mem_cons_self
  · simp only [natural?_of_isDigit hne h]

/-- The texts of a number: digits, perhaps behind a plus sign. -/
inductive Chars.Numeral : Nat → List Char → Prop
  | intro {plus digits : List Char} : plus = [] ∨ plus = ['+'] → digits ≠ [] →
      (∀ c ∈ digits, c.isDigit = true) → Numeral (Nat.ofDigitChars 10 digits 0) (plus ++ digits)

theorem Chars.unsigned?_eq_some_iff {bound n : Nat} {cs : List Char} :
    unsigned? bound cs = some n ↔ Numeral n cs ∧ n < bound := by
  constructor
  · intro h
    unfold unsigned? at h
    rw [Option.filter_eq_some_iff, decide_eq_true_eq] at h
    obtain ⟨h, hlt⟩ := h
    split at h <;> obtain ⟨⟨hne, hall⟩, rfl⟩ := natural?_eq_some_iff.mp h
    · exact ⟨.intro (.inr rfl) hne hall, hlt⟩
    · exact ⟨.intro (.inl rfl) hne hall, hlt⟩
  · rintro ⟨⟨hplus, hne, hall⟩, hlt⟩
    obtain rfl | rfl := hplus
    · rw [List.nil_append, unsigned?_of_isDigit hne hall]
      simpa [Option.filter] using hlt
    · rw [List.singleton_append, unsigned?, natural?_of_isDigit hne hall]
      simpa [Option.filter] using hlt

theorem Chars.isDigit_toDigits (n : Nat) : ∀ c ∈ Nat.toDigits 10 n, c.isDigit = true :=
  fun _ => Nat.isDigit_of_mem_toDigits (by decide) (by decide)

theorem Chars.isDigit_zeros (n : Nat) : ∀ c ∈ List.replicate n '0', c.isDigit = true :=
  fun _ hc => List.eq_of_mem_replicate hc ▸ rfl

theorem Nat.toDigits_ne_nil (n : Nat) : Nat.toDigits 10 n ≠ [] :=
  List.ne_nil_of_length_pos Nat.length_toDigits_pos

/-- A number in decimal digits is read back if it is below the bound. -/
theorem Chars.unsigned?_toDigits (bound n : Nat) :
    unsigned? bound (Nat.toDigits 10 n) = if n < bound then some n else none := by
  rw [unsigned?_of_isDigit (Nat.toDigits_ne_nil n) (isDigit_toDigits n),
    Nat.ofDigitChars_ten_toDigits]
  simp [Option.filter]

namespace Decimal

/-- A character of a numeral without an exponent. -/
def IsMark (c : Char) : Prop := c.isDigit = true ∨ c = '-' ∨ c = '.'

instance (c : Char) : Decidable (IsMark c) := inferInstanceAs (Decidable (_ ∨ _))

/-! ## Literals -/

/-- A minus sign or nothing. -/
def sign (negative : Bool) : List Char := if negative then ['-'] else []

variable {whole fraction : List Char}

theorem takeSign_sign (negative : Bool) {c : Char} (hc : c.isDigit = true) (cs : List Char) :
    takeSign (sign negative ++ c :: cs) = (negative, c :: cs) := by
  have hminus : c ≠ '-' := by rintro rfl; cases hc
  have hplus : c ≠ '+' := by rintro rfl; cases hc
  cases negative with
  | true => rfl
  | false =>
    rw [sign, if_neg Bool.false_ne_true, List.nil_append]
    unfold takeSign
    split <;> simp_all

theorem ofText?_sign (negative : Bool) {cs : List Char} (hne : cs ≠ [])
    (hhead : ∀ c ∈ cs.head?, c.isDigit = true)
    (hwhole : cs.takeWhile Char.isDigit = whole)
    (hrest : takeFraction (cs.dropWhile Char.isDigit) = (fraction, []))
    (hfraction : ∀ c ∈ fraction, c.isDigit = true) :
    ofText? (sign negative ++ cs) =
      some ⟨negative, Nat.ofDigitChars 10 (whole ++ fraction) 0, -fraction.length⟩ := by
  obtain ⟨c, cs, rfl⟩ := List.exists_cons_of_ne_nil hne
  have hc : c.isDigit = true := hhead c rfl
  have hwhole_ne : whole ≠ [] := by
    rw [← hwhole, List.takeWhile_cons_of_pos hc]
    simp
  have hall : ∀ c ∈ whole ++ fraction, c.isDigit = true := by
    refine List.forall_mem_append.mpr ⟨fun c hc => ?_, hfraction⟩
    rw [← hwhole] at hc
    exact List.mem_takeWhile_imp hc
  have hnatural := natural?_of_isDigit (by simp [hwhole_ne]) hall
  simp only [ofText?, takeSign_sign negative hc, hwhole, hrest, hnatural, exponent?, Int.zero_sub]

theorem ofText?_whole (negative : Bool) (hne : whole ≠ []) (h : ∀ c ∈ whole, c.isDigit = true) :
    ofText? (sign negative ++ whole) = some ⟨negative, Nat.ofDigitChars 10 whole 0, 0⟩ := by
  have hhead : ∀ c ∈ whole.head?, c.isDigit = true := fun c hc => h c (List.mem_of_mem_head? hc)
  have htake : whole.takeWhile Char.isDigit = whole := List.takeWhile_eq_self_iff.mpr h
  have hrest : takeFraction (whole.dropWhile Char.isDigit) = ([], []) := by
    rw [List.dropWhile_eq_nil_iff.mpr h]
    rfl
  have htext := ofText?_sign negative hne hhead htake hrest nofun
  rwa [List.append_nil] at htext

theorem ofText?_fraction (negative : Bool) (hne : whole ≠ []) (h : ∀ c ∈ whole, c.isDigit = true)
    (hfraction : ∀ c ∈ fraction, c.isDigit = true) :
    ofText? (sign negative ++ (whole ++ '.' :: fraction)) =
      some ⟨negative, Nat.ofDigitChars 10 (whole ++ fraction) 0, -fraction.length⟩ := by
  have hpoint : ∀ c ∈ ('.' :: fraction).head?, c.isDigit = false := by
    rintro _ ⟨⟩
    rfl
  refine ofText?_sign negative (by simp [hne]) (fun c hc => ?_) (takeWhile_append_eq h hpoint) ?_
    hfraction
  · rw [List.head?_append, List.head?_eq_some_head hne] at hc
    exact h c (Option.mem_some.mp hc ▸ List.head_mem hne)
  · rw [dropWhile_append_eq h hpoint, takeFraction, List.takeWhile_eq_self_iff.mpr hfraction,
      List.dropWhile_eq_nil_iff.mpr hfraction]

/-! ## Positional notation -/

/-- A decimal without a point is read as a whole number, and one with a point as it is. -/
theorem ofText?_positional (d : Decimal) : ofText? d.positional =
    some (if 0 ≤ d.exponent then ⟨d.negative, d.digits * 10 ^ d.exponent.toNat, 0⟩ else d) := by
  obtain ⟨negative, digits, exponent⟩ := d
  have hdigits := isDigit_toDigits digits
  have hne := Nat.toDigits_ne_nil digits
  unfold positional
  simp only
  rw [← sign]
  split
  · have hall := List.forall_mem_append.mpr ⟨hdigits, isDigit_zeros exponent.toNat⟩
    rw [ofText?_whole negative (by simp [hne]) hall, Nat.ofDigitChars_append,
      Nat.ofDigitChars_ten_toDigits, Nat.ofDigitChars_replicate_zero, Nat.mul_comm]
  next hexponent =>
  generalize hfraction : (-exponent).toNat = fraction
  have hcast : -(fraction : Int) = exponent := by omega
  split
  · next hlt =>
    generalize hwhole : (Nat.toDigits 10 digits).length - fraction = whole
    have hlength : ((Nat.toDigits 10 digits).drop whole).length = fraction := by
      rw [List.length_drop]
      omega
    have htake_ne : (Nat.toDigits 10 digits).take whole ≠ [] := by
      rw [Ne, List.take_eq_nil_iff, not_or]
      exact ⟨by omega, hne⟩
    rw [ofText?_fraction negative htake_ne (fun c hc => hdigits c (List.mem_of_mem_take hc))
      (fun c hc => hdigits c (List.mem_of_mem_drop hc)), List.take_append_drop,
      Nat.ofDigitChars_ten_toDigits, hlength, hcast]
  · next hle =>
    generalize hzeros : fraction - (Nat.toDigits 10 digits).length = zeros
    have hlength : (List.replicate zeros '0' ++ Nat.toDigits 10 digits).length = fraction := by
      rw [List.length_append, List.length_replicate]
      omega
    have hvalue : Nat.ofDigitChars 10
        (['0'] ++ (List.replicate zeros '0' ++ Nat.toDigits 10 digits)) 0 = digits := by
      rw [← List.append_assoc, Nat.ofDigitChars_append, ← List.replicate_one,
        List.replicate_append_replicate, Nat.ofDigitChars_replicate_zero, Nat.mul_zero,
        Nat.ofDigitChars_ten_toDigits]
    have hzero : ∀ c ∈ ['0'], c.isDigit = true := isDigit_zeros 1
    have htext := ofText?_fraction negative (List.cons_ne_nil _ _) hzero
      (List.forall_mem_append.mpr ⟨isDigit_zeros zeros, hdigits⟩)
    rwa [hlength, hvalue, hcast] at htext

/-- A whole number in decimal digits. -/
theorem toList_toString (i : Int) :
    (toString i).toList = sign (i < 0) ++ Nat.toDigits 10 i.natAbs := by
  cases i with
  | ofNat n => simp [toString, Int.repr, Nat.repr, sign]
  | negSucc n => simp [toString, Int.repr, Nat.repr, sign]

theorem ofText?_toString (i : Int) :
    ofText? (toString i).toList = some ⟨i < 0, i.natAbs, 0⟩ := by
  rw [toList_toString, ofText?_whole _ (Nat.toDigits_ne_nil _) (isDigit_toDigits _),
    Nat.ofDigitChars_ten_toDigits]

/-! ## Marks -/

theorem isMark_sign (negative : Bool) : ∀ c ∈ sign negative, IsMark c := by
  cases negative with
  | false => nofun
  | true => exact List.forall_mem_singleton.mpr (.inr (.inl rfl))

theorem isMark_positional (d : Decimal) : ∀ c ∈ d.positional, IsMark c := by
  have hpoint : IsMark '.' := .inr (.inr rfl)
  have hzero : IsMark '0' := .inl rfl
  have hdigits : ∀ c ∈ Nat.toDigits 10 d.digits, IsMark c := fun c hc =>
    .inl (isDigit_toDigits _ c hc)
  have hzeros : ∀ n, ∀ c ∈ List.replicate n '0', IsMark c := fun n c hc =>
    .inl (isDigit_zeros n c hc)
  unfold positional
  simp only
  refine List.forall_mem_append.mpr ⟨isMark_sign d.negative, ?_⟩
  split
  · exact List.forall_mem_append.mpr ⟨hdigits, hzeros _⟩
  split
  · exact List.forall_mem_append.mpr ⟨fun c hc => hdigits c (List.mem_of_mem_take hc),
      List.forall_mem_cons.mpr ⟨hpoint, fun c hc => hdigits c (List.mem_of_mem_drop hc)⟩⟩
  · exact List.forall_mem_cons.mpr ⟨hzero, List.forall_mem_cons.mpr ⟨hpoint,
      List.forall_mem_append.mpr ⟨hzeros _, hdigits⟩⟩⟩

theorem isMark_toString (i : Int) : ∀ c ∈ (toString i).toList, IsMark c := by
  rw [toList_toString]
  exact List.forall_mem_append.mpr ⟨isMark_sign _, fun c hc => .inl (isDigit_toDigits _ c hc)⟩

end Decimal

end LispBridge
