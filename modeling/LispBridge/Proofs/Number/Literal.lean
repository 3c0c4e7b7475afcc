import LispBridge.Proofs.Chars.Digits
import LispBridge.Proofs.Number.Numeral

/-!
# Decimal literals

A decimal literal is an optional sign, digits with an optional point before, among or after them,
and an optional exponent. This is its grammar, apart from how a literal is read; a text is read as
a decimal just if it is a literal of that decimal: `Decimal.ofText?_eq_some_iff`.
-/

namespace LispBridge.Decimal

open Chars

/-- An optional sign, and whether it is a minus sign. -/
inductive Sign : List Char → Bool → Prop
  | none : Sign [] false
  | plus : Sign ['+'] false
  | minus : Sign ['-'] true

/-- The end of a literal that gives its exponent. -/
inductive Exponent : List Char → Int → Prop
  | none : Exponent [] 0
  | some {mark sign negative digits n} : mark = 'e' ∨ mark = 'E' → Sign sign negative →
      digits ≠ [] → Digits 10 digits n →
      Exponent (mark :: (sign ++ digits)) (if negative then -(n : Int) else n)

/-- The text is a decimal literal, and this is the decimal that it writes. -/
inductive Literal : List Char → Decimal → Prop
  | intro {sign whole point fraction exponent negative digits e} :
      Sign sign negative → point = ['.'] ∨ point = [] ∧ fraction = [] →
      whole ++ fraction ≠ [] → Digits 10 (whole ++ fraction) digits → Exponent exponent e →
      Literal (sign ++ (whole ++ (point ++ (fraction ++ exponent))))
        ⟨negative, digits, e - fraction.length⟩

variable {cs sign whole fraction point : List Char} {negative : Bool} {n : Nat} {e : Int}
  {d : Decimal}

theorem isDigit_of_digits (h : Digits 10 cs n) : ∀ c ∈ cs, c.isDigit = true := by
  induction h with
  | nil => nofun
  | snoc _ hdigit ih =>
    refine List.forall_mem_append.mpr ⟨ih, List.forall_mem_singleton.mpr ?_⟩
    exact isDigit_of_digit? ((digit?_eq_some_iff (by decide)).mpr hdigit)

/-! ## Signs -/

theorem exists_sign (cs : List Char) :
    ∃ sign, Sign sign (takeSign cs).1 ∧ cs = sign ++ (takeSign cs).2 := by
  unfold takeSign
  split
  · exact ⟨_, .minus, rfl⟩
  · exact ⟨_, .plus, rfl⟩
  · exact ⟨_, .none, rfl⟩

theorem ne_sign {c : Char} (h : c.isDigit = true ∨ c = '.') : c ≠ '+' ∧ c ≠ '-' := by
  constructor
  · rintro rfl
    exact absurd h (by decide)
  · rintro rfl
    exact absurd h (by decide)

theorem Sign.takeSign_append (h : Sign sign negative) (hne : cs ≠ [])
    (hhead : ∀ c ∈ cs.head?, c ≠ '+' ∧ c ≠ '-') : takeSign (sign ++ cs) = (negative, cs) := by
  obtain ⟨c, cs, rfl⟩ := List.exists_cons_of_ne_nil hne
  obtain ⟨hplus, hminus⟩ := hhead c rfl
  cases h with
  | none =>
    rw [List.nil_append]
    unfold takeSign
    split <;> simp_all
  | plus | minus => rfl

/-! ## Exponents -/

theorem exponent?_cons {mark : Char} : exponent? (mark :: cs) =
    if mark = 'e' ∨ mark = 'E' then
      (natural? 10 (takeSign cs).2).map fun n : Nat => if (takeSign cs).1 then -(n : Int) else n
    else none := by
  rw [exponent?]
  dsimp only
  cases natural? 10 (takeSign cs).2 <;> rfl

theorem exponent?_eq_some_iff : exponent? cs = some e ↔ Exponent cs e := by
  constructor
  · intro h
    cases cs with
    | nil =>
      obtain rfl : 0 = e := Option.some.inj h
      exact .none
    | cons mark cs =>
      rw [exponent?_cons, Option.ite_none_right_eq_some] at h
      obtain ⟨hmark, h⟩ := h
      obtain ⟨n, hn, rfl⟩ := Option.map_eq_some_iff.mp h
      obtain ⟨hne, hdigits⟩ := (natural?_iff_digits (by decide)).mp hn
      obtain ⟨sign, hsign, hcs⟩ := exists_sign cs
      have hexponent := Exponent.some hmark hsign hne hdigits
      rwa [← hcs] at hexponent
  · intro h
    cases h with
    | none => rfl
    | some hmark hsign hne hdigits =>
      have htake := hsign.takeSign_append hne fun c hc =>
        ne_sign (.inl (isDigit_of_digits hdigits c (List.mem_of_mem_head? hc)))
      rw [exponent?_cons, if_pos hmark, htake,
        (natural?_iff_digits (by decide)).mpr ⟨hne, hdigits⟩]
      rfl

/-- An exponent starts with its mark. -/
theorem Exponent.head (h : Exponent cs e) : ∀ c ∈ cs.head?, c = 'e' ∨ c = 'E' := by
  cases h with
  | none => nofun
  | some hmark => exact fun c hc => Option.some.inj hc ▸ hmark

theorem Exponent.isDigit_head (h : Exponent cs e) : ∀ c ∈ cs.head?, c.isDigit = false := by
  intro c hc
  obtain rfl | rfl := h.head c hc <;> rfl

/-! ## Literals -/

/-- The digits after a point and the rest are what follows the point. -/
theorem exists_point (cs : List Char) : ∃ point, cs = point ++ ((takeFraction cs).1 ++
    (takeFraction cs).2) ∧ (point = ['.'] ∨ point = [] ∧ (takeFraction cs).1 = []) := by
  unfold takeFraction
  split
  · next cs => exact ⟨['.'], by simp, .inl rfl⟩
  · exact ⟨[], rfl, .inr ⟨rfl, rfl⟩⟩

theorem takeFraction_append {exponent : List Char}
    (hpoint : point = ['.'] ∨ point = [] ∧ fraction = [])
    (hfraction : ∀ c ∈ fraction, c.isDigit = true) (hexponent : Exponent exponent e) :
    takeFraction (point ++ (fraction ++ exponent)) = (fraction, exponent) := by
  have hhead := hexponent.isDigit_head
  obtain rfl | ⟨rfl, rfl⟩ := hpoint
  · rw [List.singleton_append, takeFraction, takeWhile_append_eq hfraction hhead,
      dropWhile_append_eq hfraction hhead]
  · rw [List.nil_append, List.nil_append]
    unfold takeFraction
    split
    · next cs => obtain h | h := hexponent.head '.' rfl <;> cases h
    · rfl

theorem literal_of_ofText? (h : ofText? cs = some d) : Literal cs d := by
  obtain ⟨sign, hsign, hcs⟩ := exists_sign cs
  unfold ofText? at h
  simp only at h
  generalize takeSign cs = signed at h hsign hcs
  obtain ⟨point, hrest, hpoint⟩ := exists_point (signed.2.dropWhile Char.isDigit)
  generalize takeFraction (signed.2.dropWhile Char.isDigit) = fraction at h hrest hpoint
  split at h
  · next digits e hdigits he =>
    cases h
    obtain ⟨hne, hdigits⟩ := (natural?_iff_digits (by decide)).mp hdigits
    have hliteral := Literal.intro hsign hpoint hne hdigits (exponent?_eq_some_iff.mp he)
    rwa [← hrest, List.takeWhile_append_dropWhile, ← hcs] at hliteral
  · cases h

/-- A literal without its sign starts with a digit or a point. -/
theorem exists_head {rest : List Char} (hpoint : point = ['.'] ∨ point = [] ∧ fraction = [])
    (hne : whole ++ fraction ≠ []) (hwhole : ∀ c ∈ whole, c.isDigit = true) :
    ∃ c cs, whole ++ (point ++ rest) = c :: cs ∧ (c.isDigit = true ∨ c = '.') := by
  cases whole with
  | cons c cs => exact ⟨c, _, rfl, .inl (hwhole c (.head _))⟩
  | nil =>
    obtain rfl | ⟨-, rfl⟩ := hpoint
    · exact ⟨'.', _, rfl, .inr rfl⟩
    · exact absurd rfl hne

theorem Literal.ofText?_eq (h : Literal cs d) : ofText? cs = some d := by
  obtain @⟨sign, whole, point, fraction, exponent, negative, digits, e, hsign, hpoint, hne, hdigits,
    hexponent⟩ := h
  obtain ⟨hwhole, hfraction⟩ := List.forall_mem_append.mp (isDigit_of_digits hdigits)
  -- neither a point nor an exponent starts with a digit, so the digits before them end there
  have hrest : ∀ c ∈ (point ++ (fraction ++ exponent)).head?, c.isDigit = false := by
    obtain rfl | ⟨rfl, rfl⟩ := hpoint
    · exact fun c hc => Option.some.inj hc ▸ rfl
    · exact hexponent.isDigit_head
  have htake : takeSign (sign ++ (whole ++ (point ++ (fraction ++ exponent)))) =
      (negative, whole ++ (point ++ (fraction ++ exponent))) := by
    obtain ⟨c, cs, hcs, hc⟩ := exists_head hpoint hne hwhole
    rw [hcs]
    exact hsign.takeSign_append (List.cons_ne_nil c cs) fun _ h => Option.some.inj h ▸ ne_sign hc
  simp only [ofText?, htake, takeWhile_append_eq hwhole hrest, dropWhile_append_eq hwhole hrest,
    takeFraction_append hpoint hfraction hexponent, exponent?_eq_some_iff.mpr hexponent,
    (natural?_iff_digits (by decide : 10 ≤ 16)).mpr ⟨hne, hdigits⟩]

theorem ofText?_eq_some_iff : ofText? cs = some d ↔ Literal cs d :=
  ⟨literal_of_ofText?, Literal.ofText?_eq⟩

/-- A text that has neither a digit nor a point after its sign is no literal. -/
theorem ofText?_eq_none_of_sign (h : Sign sign negative) {c : Char} (hdigit : c.isDigit = false)
    (hpoint : c ≠ '.') (hsign : c ≠ '+' ∧ c ≠ '-') : ofText? (sign ++ c :: cs) = none := by
  have htake := h.takeSign_append (List.cons_ne_nil c cs) fun _ hc => Option.some.inj hc ▸ hsign
  have hwhole : (c :: cs).takeWhile Char.isDigit = [] :=
    List.takeWhile_cons_of_neg (by simp [hdigit])
  have hrest : (c :: cs).dropWhile Char.isDigit = c :: cs :=
    List.dropWhile_cons_of_neg (by simp [hdigit])
  have hfraction : takeFraction (c :: cs) = ([], c :: cs) := by
    unfold takeFraction
    split
    · next heq => exact absurd (List.cons.inj heq).1 hpoint
    · rfl
  have hnone : natural? 10 ([] ++ []) = none := rfl
  simp only [ofText?, htake, hwhole, hrest, hfraction, hnone]

end LispBridge.Decimal
