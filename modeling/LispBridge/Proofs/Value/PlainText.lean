import LispBridge.Bridge.Buffer
import LispBridge.Proofs.Chars.Words
import LispBridge.Proofs.Number.Numeral
import LispBridge.Request

/-!
# Plain texts

A plain text is ASCII without NUL: what a module's memory can hold in full. The words of a plain
request are plain, and so is the wire text of every value that a plain word decodes to, as numbers
are written in digits (`HostValue.plain_wire_ofWire`).
-/

namespace LispBridge

/-- A character that a stored text can have. -/
def PlainChar (c : Char) : Prop := c.toNat < 128 ∧ c ≠ '\x00'

instance (c : Char) : Decidable (PlainChar c) := inferInstanceAs (Decidable (_ ∧ _))

namespace Text

def Plain (s : String) : Prop := ∀ c ∈ s.toList, PlainChar c

instance (s : String) : Decidable (Plain s) := List.decidableBAll PlainChar s.toList

theorem plain_iff {s : String} : Plain s ↔ Bridge.isAscii s = true ∧ '\x00' ∉ s.toList := by
  simp only [Plain, PlainChar, Bridge.isAscii, List.all_eq_true, decide_eq_true_eq]
  constructor
  · intro h
    exact ⟨fun c hc => (h c hc).1, fun hnul => (h _ hnul).2 rfl⟩
  · rintro ⟨hascii, hnul⟩ c hc
    exact ⟨hascii c hc, fun heq => hnul (heq ▸ hc)⟩

end Text

/-! ## Words -/

theorem Text.Plain.of_mem_words {s w : String} (h : Plain s) (hw : w ∈ words s) : Plain w := by
  obtain ⟨cs, hcs, rfl⟩ := List.mem_map.mp hw
  intro c hc
  rw [String.toList_ofList] at hc
  exact h c (Chars.mem_of_mem_words hcs hc)

theorem Request.plain_of_mem_args {s w : String} (h : Text.Plain s) (hw : w ∈ (ofText s).args) :
    Text.Plain w := by
  unfold ofText at hw
  cases hwords : Text.words s with
  | nil =>
    rw [hwords] at hw
    cases hw
  | cons op args =>
    rw [hwords] at hw
    exact h.of_mem_words (hwords ▸ List.mem_cons_of_mem _ hw)

/-! ## Numbers -/

theorem PlainChar.of_isDigit {c : Char} (h : c.isDigit = true) : PlainChar c := by
  simp only [Char.isDigit, Bool.and_eq_true, decide_eq_true_eq, ge_iff_le,
    UInt32.le_iff_toNat_le] at h
  have hupper : c.val.toNat ≤ 57 := h.2
  refine ⟨Nat.lt_of_le_of_lt hupper (by decide), ?_⟩
  rintro rfl
  exact absurd h.1 (by decide)

theorem PlainChar.of_isMark {c : Char} (h : Decimal.IsMark c) : PlainChar c := by
  obtain hdigit | rfl | rfl := h
  · exact .of_isDigit hdigit
  · decide
  · decide

theorem Binary64.plain_wireText (x : Binary64) : Text.Plain x.wireText := by
  intro c hc
  rw [wireText, String.toList_ofList, NumberText.write] at hc
  have hnan : Text.Plain "NaN" := by decide
  have hminus : Text.Plain "-inf" := by decide
  have hinf : Text.Plain "inf" := by decide
  split at hc
  · exact hnan c hc
  split at hc
  · split at hc
    · exact hminus c hc
    · exact hinf c hc
  split at hc
  · exact .of_isMark (Decimal.isMark_toString _ c hc)
  · exact .of_isMark (Decimal.isMark_positional _ c hc)

/-! ## Values -/

theorem HostValue.plain_wire {v : HostValue} (h : ∀ s, v = .symbol s → Text.Plain s) :
    Text.Plain v.wire := by
  have htruth : Text.Plain trueText ∧ Text.Plain falseText := by decide
  rw [wire]
  cases v with
  | bool b => cases b <;> simp only [WireValue.ofHost, WireValue.display, htruth]
  | number n => exact n.plain_wireText
  | symbol s =>
    rw [WireValue.ofHost]
    split
    · next n _ => exact n.plain_wireText
    · exact h s rfl

theorem HostValue.eq_of_ofWire_eq_symbol {s t : String} (h : ofWire s = .symbol t) : s = t := by
  unfold ofWire at h
  split at h
  · cases h
  split at h <;> cases h
  rfl

/-- A value that a plain text decodes to is sent as a plain text. -/
theorem HostValue.plain_wire_ofWire {s : String} (h : Text.Plain s) :
    Text.Plain (ofWire s).wire :=
  plain_wire fun _ hs => eq_of_ofWire_eq_symbol hs ▸ h

end LispBridge
