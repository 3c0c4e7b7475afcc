import Mathlib.Data.List.TakeWhile
import Mathlib.Tactic.SplitIfs
/-!
# The bytes of a text

A text that is stored in memory is the bytes of its characters. The byte zero stands for the
character NUL and for nothing else (`bytes_beforeNul`), so a reader that stops at the first zero
finds the text before its first NUL.
-/

namespace LispBridge.Text

/-- The bytes that a text takes up in memory. -/
def bytes (s : String) : List UInt8 := s.toByteArray.data.toList

/-- A text up to its first NUL. -/
def beforeNul (s : String) : String := String.ofList (s.toList.takeWhile (· ≠ '\x00'))

theorem length_bytes (s : String) : (bytes s).length = s.utf8ByteSize := Array.length_toList

theorem eq_of_bytes_eq {s t : String} (h : bytes s = bytes t) : s = t :=
  String.toByteArray_inj.mp (ByteArray.ext (Array.toList_inj.mp h))

theorem bytes_ofList (cs : List Char) :
    bytes (String.ofList cs) = cs.flatMap String.utf8EncodeChar := by
  simp [bytes, List.utf8Encode]

theorem bytes_eq (s : String) : bytes s = s.toList.flatMap String.utf8EncodeChar := by
  rw [← bytes_ofList, String.ofList_toList]

theorem utf8EncodeChar_nul : String.utf8EncodeChar '\x00' = [0] := by decide

theorem zero_ne_ofNat {n : Nat} (hpos : 0 < n) (hlt : n < 256) : 0 ≠ UInt8.ofNat n := by
  intro h
  have hn : 0 = n % 256 := congrArg UInt8.toNat h
  omega

/-- Each byte of a longer sequence carries a mark above its share of the character. -/
theorem zero_notMem_utf8EncodeChar {c : Char} (h : c ≠ '\x00') : 0 ∉ String.utf8EncodeChar c := by
  have hv : c.val.toNat ≠ 0 := fun h0 => h (Char.ext (UInt32.toNat_inj.mp h0))
  unfold String.utf8EncodeChar
  simp only
  split_ifs <;> simp only [List.mem_cons, List.not_mem_nil, or_false, not_or]
  · exact zero_ne_ofNat (by omega) (by omega)
  · exact ⟨zero_ne_ofNat (by omega) (by omega), zero_ne_ofNat (by omega) (by omega)⟩
  · exact ⟨zero_ne_ofNat (by omega) (by omega), zero_ne_ofNat (by omega) (by omega),
      zero_ne_ofNat (by omega) (by omega)⟩
  · exact ⟨zero_ne_ofNat (by omega) (by omega), zero_ne_ofNat (by omega) (by omega),
      zero_ne_ofNat (by omega) (by omega), zero_ne_ofNat (by omega) (by omega)⟩

/-- The bytes before the first zero are those of the characters before the first NUL. -/
theorem bytes_beforeNul (s : String) :
    bytes (beforeNul s) = (bytes s).takeWhile (· ≠ 0) := by
  rw [beforeNul, bytes_ofList, bytes_eq]
  induction s.toList with
  | nil => rfl
  | cons c cs ih =>
    rw [List.takeWhile_cons, List.flatMap_cons]
    by_cases hc : c = '\x00'
    · subst hc
      rw [utf8EncodeChar_nul]
      rfl
    · have hbytes : ∀ b ∈ String.utf8EncodeChar c, decide (b ≠ 0) = true := by
        intro b hb
        simpa using ne_of_mem_of_not_mem hb (zero_notMem_utf8EncodeChar hc)
      rw [if_pos (by simpa using hc), List.flatMap_cons, ih, List.takeWhile_append_of_pos hbytes]

theorem exists_zero_after_beforeNul (s : String) (rest : List UInt8) :
    ∃ rest', bytes s ++ 0 :: rest = bytes (beforeNul s) ++ 0 :: rest' := by
  have hcut : (bytes s).takeWhile (· ≠ 0) ++ (bytes s).dropWhile (· ≠ 0) = bytes s :=
    List.takeWhile_append_dropWhile
  rw [bytes_beforeNul, ← hcut, List.append_assoc, hcut]
  cases hdrop : (bytes s).dropWhile (· ≠ 0) with
  | nil => exact ⟨rest, rfl⟩
  | cons b bs =>
    have hhead := List.head?_dropWhile_not (· ≠ 0) (bytes s)
    rw [hdrop] at hhead
    have hb : b = 0 := by simpa using hhead
    exact ⟨bs ++ 0 :: rest, by rw [hb]; rfl⟩

theorem zero_mem_bytes_iff (s : String) : 0 ∈ bytes s ↔ '\x00' ∈ s.toList := by
  rw [bytes_eq, List.mem_flatMap]
  constructor
  · rintro ⟨c, hc, hzero⟩
    by_contra hnul
    exact zero_notMem_utf8EncodeChar (ne_of_mem_of_not_mem hc hnul) hzero
  · intro hnul
    exact ⟨'\x00', hnul, by simp [utf8EncodeChar_nul]⟩

theorem beforeNul_eq_self_iff (s : String) : beforeNul s = s ↔ '\x00' ∉ s.toList := by
  rw [beforeNul, ← String.toList_inj, String.toList_ofList, List.takeWhile_eq_self_iff]
  simp only [ne_eq, decide_eq_true_eq]
  constructor
  · intro h hnul
    exact h _ hnul rfl
  · intro h c hc hnul
    exact h (hnul ▸ hc)

/-- There is no NUL in what stands before the first one. -/
theorem nul_notMem_beforeNul (s : String) : '\x00' ∉ (beforeNul s).toList := by
  intro h
  rw [beforeNul, String.toList_ofList] at h
  simpa using List.mem_takeWhile_imp h

end LispBridge.Text
