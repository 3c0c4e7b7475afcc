import LispBridge.Proofs.Number.Literal
import LispBridge.Proofs.Number.Magnitude
import LispBridge.Value.Basic

/-!
# Texts that are numbers

A text is read as a number just if it is, between blanks, a whole number in an announced base that
has at most 128 bits, or a decimal literal whose magnitude does not round to infinity. Whole numbers
that are not beyond `2 ^ 53` are read as they are. An announced base takes up the first two bytes of
a text, so a text in which no character ends there is only read as a decimal; and the names of
infinity and of what is not a number are not numbers: `parseNumber_grammar`.
-/

namespace LispBridge

open Chars

namespace NumberText

open Decimal (Sign Literal ofText?)

/-- The first two characters of a literal announce its base. -/
inductive Announces : List Char → Nat → Prop
  | hexadecimal {mark} : mark = 'x' ∨ mark = 'X' → Announces ['0', mark] 16
  | octal {mark} : mark = 'o' ∨ mark = 'O' → Announces ['0', mark] 8
  | binary {mark} : mark = 'b' ∨ mark = 'B' → Announces ['0', mark] 2

/-- The text is an announced base and digits of that base, and this is the number that they
write. -/
inductive Based : List Char → Nat → Prop
  | intro {front digits base n} : Announces front base → digits ≠ [] → Digits base digits n →
      Based (front ++ digits) n

variable {cs front digits : List Char} {a b : Char} {base n : Nat} {x : Binary64}

/-! ## Announced bases -/

theorem base?_eq_some_iff : base? a b = some base ↔ Announces [a, b] base := by
  constructor
  · intro h
    unfold base? at h
    split at h <;> cases h
    · exact .hexadecimal (.inl rfl)
    · exact .hexadecimal (.inr rfl)
    · exact .octal (.inl rfl)
    · exact .octal (.inr rfl)
    · exact .binary (.inl rfl)
    · exact .binary (.inr rfl)
  · intro h
    cases h with
    | hexadecimal hmark | octal hmark | binary hmark => obtain rfl | rfl := hmark <;> rfl

theorem Announces.le (h : Announces front base) : base ≤ 16 := by
  cases h <;> decide

theorem Announces.exists_eq (h : Announces front base) : ∃ a b, front = [a, b] := by
  cases h <;> exact ⟨_, _, rfl⟩

/-- The characters that announce a base take up one byte each. -/
theorem Announces.utf8ByteSize (h : Announces front base) :
    (String.ofList front).utf8ByteSize = 2 := by
  cases h with
  | hexadecimal hmark | octal hmark | binary hmark => obtain rfl | rfl := hmark <;> decide

/-- What a base is announced for is no decimal literal, for its mark is none of an exponent. -/
theorem Announces.ofText?_eq_none (h : Announces front base) : ofText? (front ++ cs) = none := by
  cases h with
  | hexadecimal hmark | octal hmark | binary hmark => obtain rfl | rfl := hmark <;> rfl

theorem based?_eq_some_iff :
    based? cs = some x ↔ ∃ n, Based cs n ∧ n < 2 ^ 128 ∧ x = .ofRatio false n 1 := by
  constructor
  · intro h
    unfold based? at h
    split at h
    · next a b digits =>
      obtain ⟨base, hbase, h⟩ := Option.bind_eq_some_iff.mp h
      obtain ⟨n, hn, rfl⟩ := Option.map_eq_some_iff.mp h
      obtain ⟨hn, hlt⟩ := Option.filter_eq_some_iff.mp hn
      have hannounces := base?_eq_some_iff.mp hbase
      obtain ⟨hne, hdigits⟩ := (natural?_iff_digits hannounces.le).mp hn
      exact ⟨n, .intro hannounces hne hdigits, of_decide_eq_true hlt, rfl⟩
    · cases h
  · rintro ⟨n, ⟨hannounces, hne, hdigits⟩, hlt, rfl⟩
    obtain ⟨a, b, rfl⟩ := hannounces.exists_eq
    have hn := (natural?_iff_digits hannounces.le).mpr ⟨hne, hdigits⟩
    have hlt : n < basedBound := hlt
    simp [based?, base?_eq_some_iff.mpr hannounces, hn, Option.filter, hlt]

theorem Based.ofText?_eq_none (h : Based cs n) : ofText? cs = none := by
  obtain ⟨hannounces, -, -⟩ := h
  exact hannounces.ofText?_eq_none

theorem Based.head?_eq (h : Based cs n) : cs.head? = some '0' := by
  obtain ⟨hannounces, -, -⟩ := h
  cases hannounces <;> rfl

/-- A text that announces a base in its first two bytes has a character that ends there. -/
theorem Based.isValid (h : Based cs n) :
    String.Pos.Raw.IsValid (String.ofList cs) ⟨2⟩ := by
  obtain ⟨hannounces, -, -⟩ := h
  refine String.Pos.Raw.isValid_iff_exists_append.mpr ⟨_, _, String.ofList_append, ?_⟩
  exact congrArg String.Pos.Raw.mk hannounces.utf8ByteSize.symm

theorem append_inj_of_utf8ByteSize {front' digits' : List Char}
    (h : front ++ digits = front' ++ digits')
    (hsize : (String.ofList front).utf8ByteSize = (String.ofList front').utf8ByteSize) :
    front = front' ∧ digits = digits' := by
  have hnil {cs rest : List Char} (h : (String.ofList (cs ++ rest)).utf8ByteSize =
      (String.ofList cs).utf8ByteSize) : rest = [] := by
    rw [String.ofList_append, String.utf8ByteSize_append, Nat.add_eq_left,
      String.utf8ByteSize_eq_zero_iff, String.ofList_eq_empty_iff] at h
    exact h
  obtain ⟨rest, rfl, rfl⟩ | ⟨rest, rfl, rfl⟩ := List.append_eq_append_iff.mp h
  · obtain rfl := hnil hsize.symm
    simp
  · obtain rfl := hnil hsize
    simp

/-- Where a character ends at the second byte of a text, what stands before it is what is weighed
as the announcement of a base, and what stands after it are the digits. -/
theorem based_iff_of_cut (hsize : (String.ofList front).utf8ByteSize = 2) :
    Based (front ++ digits) n ↔
      ∃ base, Announces front base ∧ digits ≠ [] ∧ Digits base digits n := by
  constructor
  · intro h
    generalize hcs : front ++ digits = cs at h
    obtain ⟨hannounces, hne, hdigits⟩ := h
    obtain ⟨rfl, rfl⟩ := append_inj_of_utf8ByteSize hcs (hsize.trans hannounces.utf8ByteSize.symm)
    exact ⟨_, hannounces, hne, hdigits⟩
  · rintro ⟨base, hannounces, hne, hdigits⟩
    exact .intro hannounces hne hdigits

/-- A whole number that is not beyond `2 ^ 53` is the number next to it. -/
theorem exists_ofRatio_eq (h : n ≤ 2 ^ 53) : ∃ x : Binary64,
    .ofRatio false n 1 = x ∧ x.isFinite = true ∧ x.value = n := by
  obtain ⟨x, hnegative, hfinite, hunits⟩ := Binary64.exists_units_eq_mul_one false h
  have hexact := (Binary64.Within.exact x Nat.one_pos).ofUnits_eq hfinite Nat.one_pos
  rw [hnegative, Nat.mul_one, hunits] at hexact
  refine ⟨x, hexact, hfinite, ?_⟩
  rw [Binary64.value_eq_of_units hunits, hnegative]
  exact one_mul _

/-! ## Decimals -/

theorem decimal?_eq_some_iff : decimal? cs = some x ↔
    ∃ d, Literal cs d ∧ |d.value| < 2 ^ 1024 - 2 ^ 970 ∧ x = d.toBinary64 := by
  simp only [decimal?, Option.filter_eq_some_iff, Option.map_eq_some_iff,
    Decimal.ofText?_eq_some_iff]
  constructor
  · rintro ⟨⟨d, hliteral, rfl⟩, hfinite⟩
    exact ⟨d, hliteral, Decimal.isFinite_toBinary64_iff.mp hfinite, rfl⟩
  · rintro ⟨d, hliteral, hlt, rfl⟩
    exact ⟨⟨d, hliteral, rfl⟩, Decimal.isFinite_toBinary64_iff.mpr hlt⟩

/-! ## Both kinds of literals -/

/-- A text is a literal of at most one kind, so the order in which they are tried is nothing. -/
theorem read?_eq_some_iff : read? cs = some x ↔
    (∃ n, Based (trim cs) n ∧ n < 2 ^ 128 ∧ x = .ofRatio false n 1) ∨
      ∃ d, Literal (trim cs) d ∧ |d.value| < 2 ^ 1024 - 2 ^ 970 ∧ x = d.toBinary64 := by
  rw [← based?_eq_some_iff, ← decimal?_eq_some_iff, read?]
  cases hbased : based? (trim cs) with
  | none => simp
  | some y =>
    obtain ⟨n, hn, -⟩ := based?_eq_some_iff.mp hbased
    have hnone : decimal? (trim cs) = none := by rw [decimal?, hn.ofText?_eq_none]; rfl
    simp [hnone]

theorem read?_of_based?_eq_none (h : based? (trim cs) = none) : read? cs = decimal? (trim cs) := by
  simp only [read?, h]

/-! ## Names of what is no number -/

/-- A name of infinity or of what is not a number, in letters of any case. -/
def IsSpecialName (name : List Char) : Prop :=
  String.ofList (name.map Char.toLower) ∈ ["inf", "infinity", "nan"]

theorem le_of_toLower {l : Char} (h : a.toLower = l) (hl : 'A' ≤ l) : 'A' ≤ a := by
  unfold Char.toLower at h
  split at h
  · next hrange => exact hrange.1
  · exact h ▸ hl

theorem IsSpecialName.exists_cons {name : List Char} (h : IsSpecialName name) :
    ∃ c rest, name = c :: rest ∧ 'A' ≤ c := by
  have hmem := h
  simp only [IsSpecialName, List.mem_cons, List.not_mem_nil, or_false] at hmem
  cases name with
  | nil => simp at hmem
  | cons c rest =>
    refine ⟨c, rest, rfl, ?_⟩
    obtain hname | hname | hname := hmem <;> have hlist := congrArg String.toList hname <;>
      rw [String.toList_ofList] at hlist <;>
      exact le_of_toLower (List.cons.inj hlist).1 (by decide)

theorem IsSpecialName.read?_eq_none {sign name : List Char} {negative : Bool}
    (hname : IsSpecialName name) (hsign : Sign sign negative) (hcs : trim cs = sign ++ name) :
    read? cs = none := by
  obtain ⟨c, rest, rfl, hc⟩ := hname.exists_cons
  have hdigit : c.isDigit = false := by
    by_contra hdigit
    simp only [Char.isDigit, Bool.not_eq_false, Bool.and_eq_true, decide_eq_true_eq] at hdigit
    exact absurd (UInt32.le_trans hc hdigit.2) (by decide)
  have hne {l : Char} (hl : ¬ 'A' ≤ l) : c ≠ l := fun h => hl (h ▸ hc)
  have hnone : ofText? (sign ++ c :: rest) = none := Decimal.ofText?_eq_none_of_sign hsign hdigit
    (hne (by decide)) ⟨hne (by decide), hne (by decide)⟩
  refine Option.eq_none_iff_forall_ne_some.mpr fun x hx => ?_
  obtain ⟨n, hbased, -⟩ | ⟨d, hliteral, -⟩ := read?_eq_some_iff.mp hx
  · rw [hcs] at hbased
    have hhead := hbased.head?_eq
    cases hsign with
    | none => exact hne (by decide) (Option.some.inj hhead)
    | plus | minus => cases hhead
  · rw [hcs] at hliteral
    cases hnone.symm.trans (Decimal.ofText?_eq_some_iff.mpr hliteral)

end NumberText

/-- A text is a number just if it is a literal between blanks, and it is the number that the
literal writes if that is whole and not beyond `2 ^ 53`. A base is looked for in what stands before
the end of the second byte, and only if a character ends there. The names of infinity and of what is
not a number are no numbers. -/
theorem parseNumber_grammar {s : String} {t : List Char} (ht : trim s.toList = t) :
    ((parseNumber s).isSome = true ↔ (∃ n, NumberText.Based t n ∧ n < 2 ^ 128) ∨
      ∃ d, Decimal.Literal t d ∧ |d.value| < 2 ^ 1024 - 2 ^ 970) ∧
    (∀ n, NumberText.Based t n → n ≤ 2 ^ 53 →
      ∃ x, parseNumber s = some x ∧ x.isFinite = true ∧ x.value = n) ∧
    (∀ (d : Decimal) (i : Int), Decimal.Literal t d → d.value = i → |i| ≤ 2 ^ 53 →
      ∃ x, parseNumber s = some x ∧ x.isFinite = true ∧ x.value = i) ∧
    (∀ front digits, t = front ++ digits → (String.ofList front).utf8ByteSize = 2 → ∀ n,
      NumberText.Based t n ↔
        ∃ base, NumberText.Announces front base ∧ digits ≠ [] ∧ Digits base digits n) ∧
    (¬String.Pos.Raw.IsValid (String.ofList t) ⟨2⟩ → parseNumber s = NumberText.decimal? t) ∧
    (∀ sign negative name, Decimal.Sign sign negative → NumberText.IsSpecialName name →
      t = sign ++ name → parseNumber s = none) := by
  subst ht
  have hread {x : Binary64} : parseNumber s = some x ↔ _ := NumberText.read?_eq_some_iff
  refine ⟨?_, fun n hbased hle => ?_, fun d i hliteral hvalue hle => ?_,
    fun front digits ht hsize n => ht ▸ NumberText.based_iff_of_cut hsize, fun hcut => ?_,
    fun sign negative name hsign hname ht => hname.read?_eq_none hsign ht⟩
  · rw [Option.isSome_iff_exists]
    constructor
    · rintro ⟨x, hx⟩
      obtain ⟨n, hbased, hlt, -⟩ | ⟨d, hliteral, hlt, -⟩ := hread.mp hx
      · exact .inl ⟨n, hbased, hlt⟩
      · exact .inr ⟨d, hliteral, hlt⟩
    · rintro (⟨n, hbased, hlt⟩ | ⟨d, hliteral, hlt⟩)
      · exact ⟨_, hread.mpr (.inl ⟨n, hbased, hlt, rfl⟩)⟩
      · exact ⟨_, hread.mpr (.inr ⟨d, hliteral, hlt, rfl⟩)⟩
  · obtain ⟨x, hx, hfinite, hvalue⟩ := NumberText.exists_ofRatio_eq hle
    have hlt : n < 2 ^ 128 := Nat.lt_of_le_of_lt hle (by decide)
    exact ⟨x, hread.mpr (.inl ⟨n, hbased, hlt, hx.symm⟩), hfinite, hvalue⟩
  · have hsign : (i : ℚ) = signed d.negative * |(i : ℚ)| := by rw [← hvalue]; exact d.value_eq
    obtain ⟨x, hnegative, hfinite, hx⟩ := Binary64.exists_value_eq_int hle hsign
    have hd := Decimal.toBinary64_eq_of_value_eq hfinite hnegative.symm (hvalue.trans hx.symm)
    have hlt := Decimal.isFinite_toBinary64_iff.mp (hd ▸ hfinite)
    exact ⟨x, hread.mpr (.inr ⟨d, hliteral, hlt, hd.symm⟩), hfinite, hx⟩
  · have hbased : NumberText.based? (trim s.toList) = none := by
      refine Option.eq_none_iff_forall_ne_some.mpr fun x hx => hcut ?_
      obtain ⟨n, hn, -⟩ := NumberText.based?_eq_some_iff.mp hx
      exact hn.isValid
    exact NumberText.read?_of_based?_eq_none hbased

/-- Blanks, and digits in letters of both cases. -/
theorem parseNumber_grammar_hexadecimal :
    ∃ x, parseNumber " 0xfF " = some x ∧ x.isFinite = true ∧ x.value = (255 : Nat) := by
  have htrim : trim " 0xfF ".toList = ['0', 'x'] ++ ['f', 'F'] := by decide
  have hsmall : IsDigit 16 'f' 15 := ⟨by decide, .inl rfl⟩
  have hcapital : IsDigit 16 'F' 15 := ⟨by decide, .inr rfl⟩
  have hdigits : Digits 16 ['f', 'F'] 255 := .snoc (.snoc .nil hsmall) hcapital
  have hbased := NumberText.Based.intro (.hexadecimal (.inl rfl)) (by decide) hdigits
  obtain ⟨-, hexact, -⟩ := parseNumber_grammar htrim
  exact hexact 255 hbased (by decide)

end LispBridge
