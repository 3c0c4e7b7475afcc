import LispBridge.Proofs.Number.Shortest
import LispBridge.Proofs.Value.PlainText

/-!
# The normal form of wire text

A number is written without a blank, a letter or a sign of zero, so that its text is neither a truth
value nor a numeral in an announced base, and reads back as the number (`NumberText.read?_write`).
Decoding the text of a value thus yields the value, but for the sign of a zero and for a symbol
whose text stands for something else (`HostValue.ofWire_wire`).
-/

namespace LispBridge

open Chars

variable {x : Binary64}

namespace Binary64

/-- The number itself, except that a negative zero is made the other one. -/
def dropZeroSign (x : Binary64) : Binary64 :=
  if x.isZero then ⟨false, x.code⟩ else x

theorem isNaN_of_isFinite (h : x.isFinite = true) : x.isNaN = false := by
  simp only [isFinite, isNaN, decide_eq_true_eq, decide_eq_false_iff_not] at h ⊢
  omega

theorem numEq_dropZeroSign (h : x.isFinite = true) : x.dropZeroSign.numEq x = true := by
  unfold dropZeroSign numEq
  have hnan := isNaN_of_isFinite h
  split
  · next hzero =>
    have hnan' : isNaN ⟨false, x.code⟩ = false := hnan
    have hzero' : isZero ⟨false, x.code⟩ = true := hzero
    simp [hnan, hnan', hzero, hzero']
  · simp [hnan]

end Binary64

/-! ## Numbers as text -/

namespace NumberText

open Decimal

theorem isBlank_of_isMark {c : Char} (h : IsMark c) : isBlank c = false := by
  obtain hdigit | rfl | rfl := h
  · simp only [Char.isDigit, Bool.and_eq_true, decide_eq_true_eq, ge_iff_le,
      UInt32.le_iff_toNat_le] at hdigit
    have hlow : 48 ≤ c.toNat := hdigit.1
    have hhigh : c.toNat ≤ 57 := hdigit.2
    simp only [isBlank, blankRanges, List.any_cons, List.any_nil, Bool.or_false,
      Bool.or_eq_false_iff, Bool.and_eq_false_iff, decide_eq_false_iff_not, Nat.not_le]
    omega
  · rfl
  · rfl

variable {cs : List Char} (h : ∀ c ∈ cs, IsMark c)
include h

theorem trim_of_isMark : trim cs = cs := by
  have hdrop : ∀ l : List Char, (∀ c ∈ l, IsMark c) → l.dropWhile isBlank = l := by
    intro l hl
    cases l with
    | nil => rfl
    | cons c l =>
      have hblank := isBlank_of_isMark (hl c List.mem_cons_self)
      exact List.dropWhile_cons_of_neg (by simp [hblank])
  rw [trim, trimStart, hdrop cs h, trimEnd, hdrop _ (by simpa using h), List.reverse_reverse]

theorem based?_of_isMark : based? cs = none := by
  rcases cs with - | ⟨a, - | ⟨b, cs⟩⟩
  · rfl
  · rfl
  · have hb : IsMark b := h b (by simp)
    have hbase : base? a b = none := by
      unfold base?
      split <;> first | rfl | exact absurd hb (by decide)
    rw [based?, hbase, Option.bind_none]

theorem read?_of_isMark : read? cs = decimal? cs := by
  rw [read?, trim_of_isMark h, based?_of_isMark h]

omit h

theorem write_of_isFinite (hx : x.isFinite = true) : write x =
    if x.isWhole && x.toInt.natAbs < wholeLimit then (toString x.toInt).toList
    else (shortest .away x).positional := by
  rw [write, if_neg (by simp [Binary64.isNaN_of_isFinite hx]), if_neg (by simp [hx])]

theorem isMark_write (hx : x.isFinite = true) : ∀ c ∈ write x, IsMark c := by
  rw [write_of_isFinite hx]
  split
  · exact isMark_toString _
  · exact isMark_positional _

theorem decimal?_eq {d : Decimal} (hd : ofText? cs = some d) (hx : d.toBinary64 = x)
    (hfinite : x.isFinite = true) : decimal? cs = some x := by
  rw [decimal?, hd, Option.map_some, hx, Option.filter_some, if_pos hfinite]

theorem code_of_isZero (h : x.isZero = true) : x.code = ⟨0, by decide⟩ :=
  Fin.ext (by simpa [Binary64.isZero] using h)

theorem write_of_isZero (h : x.isZero = true) : write x = ['0'] := by
  obtain ⟨negative, code⟩ := x
  obtain rfl : code = ⟨0, by decide⟩ := code_of_isZero h
  cases negative <;> decide +kernel

theorem decimal?_toString (hzero : x.isZero = false) (hwhole : x.isWhole = true)
    (hfinite : x.isFinite = true) : decimal? (toString x.toInt).toList = some x :=
  decimal?_eq (ofText?_toString _) ((near_toInt hzero hwhole).toBinary64_eq hzero hfinite) hfinite

theorem decimal?_positional (tie : Tie) (hzero : x.isZero = false) (hfinite : x.isFinite = true) :
    decimal? (shortest tie x).positional = some x := by
  obtain ⟨d, htext, hnear⟩ := (near_shortest tie hzero).ofText?_positional
  exact decimal?_eq htext (hnear.toBinary64_eq hzero hfinite) hfinite

/-- A finite number is read back as it was written, but for the sign of a zero. -/
theorem read?_write (hfinite : x.isFinite = true) : read? (write x) = some x.dropZeroSign := by
  rw [read?_of_isMark (isMark_write hfinite), Binary64.dropZeroSign]
  split
  · next hzero =>
    have hread : decimal? ['0'] = some ⟨false, ⟨0, by decide⟩⟩ := by decide +kernel
    rw [write_of_isZero hzero, hread, code_of_isZero hzero]
  · next hzero =>
    have hzero : x.isZero = false := by simpa using hzero
    rw [write_of_isFinite hfinite]
    split
    · next hwhole =>
      simp only [Bool.and_eq_true] at hwhole
      exact decimal?_toString hzero hwhole.1 hfinite
    · exact decimal?_positional .away hzero hfinite

theorem isFinite_of_decimal? (hx : decimal? cs = some x) : x.isFinite = true := by
  obtain ⟨-, hfinite⟩ := Option.filter_eq_some_iff.mp hx
  exact hfinite

theorem isFinite_of_based? (hx : based? cs = some x) : x.isFinite = true := by
  unfold based? at hx
  split at hx
  · obtain ⟨base, -, hx⟩ := Option.bind_eq_some_iff.mp hx
    obtain ⟨n, hn, rfl⟩ := Option.map_eq_some_iff.mp hx
    obtain ⟨-, hbound⟩ := Option.filter_eq_some_iff.mp hn
    have hlt : n < basedBound := by simpa using hbound
    have hone : basedBound * Binary64.one ≤ 2 ^ (2044 + 53) * 1 := by decide +kernel
    refine Binary64.isFinite_ofUnits Nat.one_pos (Nat.lt_of_lt_of_le ?_ hone)
    exact Nat.mul_lt_mul_of_pos_right hlt (by decide +kernel)
  · cases hx

theorem isFinite_of_read? (hx : read? cs = some x) : x.isFinite = true := by
  unfold read? at hx
  simp only at hx
  split at hx
  · next hbased =>
    obtain rfl := Option.some.inj hx
    exact isFinite_of_based? hbased
  · exact isFinite_of_decimal? hx

end NumberText

theorem Binary64.isMark_wireText (h : x.isFinite = true) :
    ∀ c ∈ x.wireText.toList, Decimal.IsMark c := by
  rw [wireText, String.toList_ofList]
  exact NumberText.isMark_write h

theorem parseNumber_wireText (h : x.isFinite = true) :
    parseNumber x.wireText = some x.dropZeroSign := by
  rw [parseNumber, Binary64.wireText, String.toList_ofList, NumberText.read?_write h]

theorem Binary64.wireText_dropZeroSign (x : Binary64) : x.dropZeroSign.wireText = x.wireText := by
  unfold dropZeroSign
  split
  · next hzero =>
    have hzero' : isZero ⟨false, x.code⟩ = true := hzero
    rw [wireText, wireText, NumberText.write_of_isZero hzero, NumberText.write_of_isZero hzero']
  · rfl

/-! ## Values -/

theorem truthOfWire?_wireText (h : x.isFinite = true) : truthOfWire? x.wireText = none := by
  have hmark := x.isMark_wireText h
  have htrue : x.wireText ≠ trueText := by
    intro heq
    exact absurd (hmark '#' (by rw [heq]; decide)) (by decide)
  have hfalse : x.wireText ≠ falseText := by
    intro heq
    exact absurd (hmark '(' (by rw [heq]; decide)) (by decide)
  rw [truthOfWire?, if_neg htrue, if_neg hfalse]

theorem parseNumber_of_truthOfWire? {s : String} {b : Bool} (h : truthOfWire? s = some b) :
    parseNumber s = none := by
  unfold truthOfWire? at h
  split at h
  · next heq => rw [heq]; decide +kernel
  split at h
  · next heq => rw [heq]; decide +kernel
  · cases h

namespace HostValue

/-- The value is not infinite, and not what is not a number. -/
def Finite : HostValue → Prop
  | .number n => n.isFinite = true
  | _ => True

/-- Equality of values, where numbers are compared as numbers. -/
def Agrees : HostValue → HostValue → Prop
  | .number m, .number n => m.numEq n = true
  | v, w => v = w

/-- The value that the text of a value stands for: a symbol may be the text of another value. -/
def meant : HostValue → HostValue
  | .symbol s => ofWire s
  | v => v

/-- The value itself, except that a negative zero is made the other one. -/
def dropZeroSign : HostValue → HostValue
  | .number n => .number n.dropZeroSign
  | v => v

theorem agrees_dropZeroSign {v : HostValue} (h : v.Finite) : v.dropZeroSign.Agrees v := by
  cases v with
  | number n => exact Binary64.numEq_dropZeroSign h
  | bool b => rfl
  | symbol s => rfl

theorem finite_ofWire (wire : String) : (ofWire wire).Finite := by
  unfold ofWire
  split
  · trivial
  split
  · next hread => exact NumberText.isFinite_of_read? hread
  · trivial

theorem meant_ofWire (wire : String) : (ofWire wire).meant = ofWire wire := by
  cases h : ofWire wire with
  | symbol s =>
    obtain rfl := eq_of_ofWire_eq_symbol h
    exact h
  | bool b => rfl
  | number n => rfl

theorem ofWire_wireText (h : x.isFinite = true) : ofWire x.wireText = .number x.dropZeroSign := by
  rw [ofWire, truthOfWire?_wireText h]
  simp only [parseNumber_wireText h]

/-- The text of a value decodes to what it stands for, but for the sign of a zero. -/
theorem ofWire_wire {v : HostValue} (h : v.Finite) : ofWire v.wire = v.meant.dropZeroSign := by
  cases v with
  | bool b => cases b <;> rfl
  | number n => exact ofWire_wireText h
  | symbol s =>
    rw [wire, WireValue.ofHost]
    cases hread : parseNumber s with
    | none =>
      have hmeant : (ofWire s).dropZeroSign = ofWire s := by
        unfold ofWire
        rw [hread]
        split <;> rfl
      exact hmeant.symm
    | some n =>
      have hmeant : ofWire s = .number n := by
        cases htruth : truthOfWire? s with
        | none => simp only [ofWire, htruth, hread]
        | some b => rw [parseNumber_of_truthOfWire? htruth] at hread; cases hread
      rw [meant, hmeant]
      exact ofWire_wireText (NumberText.isFinite_of_read? hread)

theorem wire_dropZeroSign (v : HostValue) : v.dropZeroSign.wire = v.wire := by
  cases v with
  | number n => exact n.wireText_dropZeroSign
  | bool b => rfl
  | symbol s => rfl

/-- Text that reads as no number is sent back as it came. -/
theorem wire_ofWire_of_parseNumber {wire : String} (h : parseNumber wire = none) :
    (ofWire wire).wire = wire := by
  unfold ofWire
  rw [h]
  split
  · next b htruth =>
    unfold truthOfWire? at htruth
    split at htruth
    · next heq => obtain rfl := Option.some.inj htruth; exact heq.symm
    split at htruth
    · next heq => obtain rfl := Option.some.inj htruth; exact heq.symm
    · cases htruth
  · simp only [HostValue.wire, WireValue.ofHost, h, WireValue.display]

/-- What a wire text has in common with its canonical form, the text of the value it decodes to. -/
structure Canonical (wire canonical : String) : Prop where
  decodes : (ofWire canonical).Agrees (ofWire wire)
  fixed : (ofWire canonical).wire = canonical
  unchanged : parseNumber wire = none → canonical = wire
  typed : LispType.ofWire canonical = LispType.ofHost (ofWire wire)
  typed_wire : LispType.ofHost (ofWire wire) = LispType.ofWire wire

/-- The text of a finite value decodes to what the value stands for, and decoding and encoding
brings a wire text into a form that they leave as it is. -/
theorem wire_normal_form {v : HostValue} (h : v.Finite) (wire : String) :
    (ofWire v.wire).Agrees v.meant ∧ Canonical wire (ofWire wire).wire := by
  have hagrees : v.meant.Finite := by
    cases v with
    | symbol s => exact finite_ofWire s
    | bool b => exact h
    | number n => exact h
  have hdecode : ofWire (ofWire wire).wire = (ofWire wire).dropZeroSign := by
    rw [ofWire_wire (finite_ofWire wire), meant_ofWire]
  refine ⟨ofWire_wire h ▸ agrees_dropZeroSign hagrees, ?_, ?_, wire_ofWire_of_parseNumber, ?_, ?_⟩
  · rw [hdecode]
    exact agrees_dropZeroSign (finite_ofWire wire)
  · rw [hdecode, wire_dropZeroSign]
  · rw [← LispType.ofHost_ofWire, hdecode]
    cases ofWire wire <;> rfl
  · exact LispType.ofHost_ofWire wire

/-- The number 0.1 and the text of a negative zero between blanks. -/
theorem wire_normal_form_tenth :
    (HostValue.number (.ofBits 0x3FB999999999999A)).Finite ∧
      (ofWire "0.1").Agrees (.number (.ofBits 0x3FB999999999999A)) ∧ Canonical " -0.0 " "0" := by
  have hfinite : (HostValue.number (.ofBits 0x3FB999999999999A)).Finite := by
    simp only [Finite]
    decide +kernel
  have htenth : (HostValue.number (.ofBits 0x3FB999999999999A)).wire = "0.1" := by decide +kernel
  have hzero : (ofWire " -0.0 ").wire = "0" := by decide +kernel
  have hform := wire_normal_form hfinite " -0.0 "
  rw [htenth, hzero] at hform
  exact ⟨hfinite, hform⟩

end HostValue

end LispBridge
