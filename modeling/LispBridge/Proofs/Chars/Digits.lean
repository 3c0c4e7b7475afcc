import LispBridge.Chars.Numeral
import Mathlib.Data.List.Induction
import Mathlib.Tactic.IntervalCases

/-!
# Runs of digits

`Digits base cs n` is the grammar of a run of digits and the number that it writes, apart from how
such runs are read. The two agree in bases up to sixteen: `natural?_iff_digits`.
-/

namespace LispBridge.Chars

/-- The character is a digit of the base, and this is its value; letters can be of both cases. -/
def IsDigit (base : Nat) (c : Char) (d : Nat) : Prop :=
  d < base ∧ (c = Nat.digitChar d ∨ c = (Nat.digitChar d).toUpper)

/-- The text is a run of digits of the base, and this is the number that it writes. -/
inductive Digits (base : Nat) : List Char → Nat → Prop
  | nil : Digits base [] 0
  | snoc {cs n c d} : Digits base cs n → IsDigit base c d → Digits base (cs ++ [c]) (base * n + d)

variable {base d n : Nat} {c : Char} {cs : List Char}

/-! ## Digits -/

/-- The characters of a range are digits in turn if the range is checked place by place. -/
theorem digitChar_of_range {low high : Char} (first : Nat) (h : low ≤ c ∧ c ≤ high)
    (hdigits : ∀ k ≤ high.toNat - low.toNat,
      Char.ofNat (low.toNat + k) = Nat.digitChar (k + first) ∨
        Char.ofNat (low.toNat + k) = (Nat.digitChar (k + first)).toUpper) :
    c = Nat.digitChar (c.toNat - low.toNat + first) ∨
      c = (Nat.digitChar (c.toNat - low.toNat + first)).toUpper := by
  have hlow : low.toNat ≤ c.toNat := UInt32.le_iff_toNat_le.mp h.1
  have hhigh : c.toNat ≤ high.toNat := UInt32.le_iff_toNat_le.mp h.2
  have hdigit := hdigits (c.toNat - low.toNat) (Nat.sub_le_sub_right hhigh _)
  rwa [Nat.add_sub_cancel' hlow, Char.ofNat_toNat] at hdigit

theorem digit?_eq_some_iff (hbase : base ≤ 16) : digit? base c = some d ↔ IsDigit base c d := by
  rw [digit?, Option.filter_eq_some_iff, decide_eq_true_eq]
  constructor
  · rintro ⟨h, hlt⟩
    refine ⟨hlt, ?_⟩
    split at h
    · next hrange =>
      cases h
      exact digitChar_of_range 0 hrange (by decide)
    split at h
    · next hrange =>
      cases h
      exact digitChar_of_range 10 hrange (by decide)
    split at h
    · next hrange =>
      cases h
      exact digitChar_of_range 10 hrange (by decide)
    · cases h
  · rintro ⟨hlt, hc⟩
    have hd : d < 16 := Nat.lt_of_lt_of_le hlt hbase
    refine ⟨?_, hlt⟩
    clear hlt hbase
    obtain rfl | rfl := hc <;> (interval_cases d <;> rfl)

/-! ## Runs -/

theorem digits_append_singleton_iff :
    Digits base (cs ++ [c]) n ↔ ∃ m d, Digits base cs m ∧ IsDigit base c d ∧ base * m + d = n := by
  constructor
  · intro h
    generalize hcs : cs ++ [c] = l at h
    cases h with
    | nil => exact absurd hcs (by simp)
    | snoc hdigits hdigit =>
      obtain ⟨rfl, hc⟩ := List.append_inj' hcs rfl
      cases hc
      exact ⟨_, _, hdigits, hdigit, rfl⟩
  · rintro ⟨m, d, hdigits, hdigit, rfl⟩
    exact .snoc hdigits hdigit

/-- One more digit multiplies what the digits before it write by the base. -/
theorem mapM_digit?_append_singleton :
    ((cs ++ [c]).mapM (digit? base)).map (ofDigits base) =
      ((cs.mapM (digit? base)).map (ofDigits base)).bind fun m =>
        (digit? base c).map fun d => base * m + d := by
  rw [List.mapM_append]
  cases cs.mapM (digit? base) with
  | none => rfl
  | some ds => cases hd : digit? base c <;> simp [hd, ofDigits]

theorem mapM_digit?_iff (hbase : base ≤ 16) :
    (cs.mapM (digit? base)).map (ofDigits base) = some n ↔ Digits base cs n := by
  induction cs using List.reverseRecOn generalizing n with
  | nil =>
    refine ⟨fun h => ?_, fun h => ?_⟩
    · obtain rfl : 0 = n := Option.some.inj h
      exact .nil
    · generalize hcs : ([] : List Char) = l at h
      cases h with
      | nil => rfl
      | snoc => exact absurd hcs (by simp)
  | append_singleton cs c ih =>
    rw [mapM_digit?_append_singleton, digits_append_singleton_iff]
    simp only [Option.bind_eq_some_iff, Option.map_eq_some_iff (f := fun d => _ + d), ih,
      digit?_eq_some_iff hbase, exists_and_left]

theorem natural?_iff_digits (hbase : base ≤ 16) :
    natural? base cs = some n ↔ cs ≠ [] ∧ Digits base cs n := by
  rw [natural?, Option.ite_none_left_eq_some, mapM_digit?_iff hbase, List.isEmpty_iff]

end LispBridge.Chars
