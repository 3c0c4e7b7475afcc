import LispBridge.Proofs.Chars.Bytes
import LispBridge.Sandbox.Interpreter

/-!
# Modules that store texts as bytes and a zero

`TextStore` is what a host may rely on when it stores texts in a module's memory: a text becomes its
bytes and a zero, and reading gives what stands before the first zero. A store that does not fit its
block may spoil anything. That a block is not handed out twice is no part of it: an allocator whose
addresses start over has the contract, too, as the sandbox shows (`Sandbox.textStore`).
-/

namespace LispBridge.Bridge

variable {σ : Type}

/-- A view of a module's memory as bytes. -/
structure TextStore (m : Module σ) where
  /-- The bytes of the block at an address; none if there is no block. -/
  block : σ → Addr → List UInt8
  alloc_ok : ∀ {size s a s'}, m.alloc size s = (.ok a, s') →
    (block s' a).length = size ∧ ∀ a', a' ≠ a → block s' a' = block s a'
  alloc_error : ∀ {size s e s'}, m.alloc size s = (.error e, s') → block s' = block s
  free : ∀ {a s a'}, a' ≠ a → block (m.free a s) a' = block s a'
  setCallback : ∀ {present s}, block (m.setCallback present s) = block s
  write_ok : ∀ {a text s s'}, m.write a text s = (.ok (), s') →
    text.utf8ByteSize + 1 ≤ (block s a).length →
    (block s' a).length = (block s a).length ∧ (∃ rest, block s' a = Text.bytes text ++ 0 :: rest) ∧
      ∀ a', a' ≠ a → block s' a' = block s a'
  /-- A store that fails has copied nothing. -/
  write_error : ∀ {a text s e s'}, m.write a text s = (.error e, s') →
    block s' = block s ∧ ∀ a', m.read a' s' = m.read a' s
  read : ∀ {s a text rest}, block s a = Text.bytes text ++ 0 :: rest → '\x00' ∉ text.toList →
    m.read a s = .ok text

namespace TextStore

variable {m : Module σ} (store : TextStore m)

/-- A text and its end stand at the beginning of the block. -/
def Holds (s : σ) (a : Addr) (text : String) : Prop :=
  ∃ rest, store.block s a = Text.bytes text ++ 0 :: rest

variable {store} {s : σ} {a : Addr} {text : String}

theorem Holds.read_eq (h : store.Holds s a text) : m.read a s = .ok (Text.beforeNul text) := by
  obtain ⟨rest, hblock⟩ := h
  obtain ⟨rest', hcut⟩ := Text.exists_zero_after_beforeNul text rest
  exact store.read (hblock.trans hcut) (Text.nul_notMem_beforeNul text)

theorem Holds.read_eq_self_iff (h : store.Holds s a text) :
    m.read a s = .ok text ↔ '\x00' ∉ text.toList := by
  rw [h.read_eq, Except.ok.injEq, Text.beforeNul_eq_self_iff]

end TextStore

end LispBridge.Bridge

/-! ## The sandbox -/

namespace LispBridge.Sandbox

open Bridge

/-- A block as bytes: its text, and zeros after it. -/
def Block.bytes (b : Block) : List UInt8 :=
  (Text.bytes b.text ++ List.replicate b.capacity 0).take b.capacity

theorem Block.length_bytes (b : Block) : b.bytes.length = b.capacity := by
  simp [bytes]

theorem Block.bytes_of_fits {b : Block} (h : b.text.utf8ByteSize + 1 ≤ b.capacity) :
    ∃ rest, b.bytes = Text.bytes b.text ++ 0 :: rest := by
  have hlen := Text.length_bytes b.text
  refine ⟨List.replicate (b.capacity - b.text.utf8ByteSize - 1) 0, ?_⟩
  rw [bytes, List.take_append, List.take_of_length_le (by omega), hlen, List.take_replicate,
    ← List.replicate_succ]
  congr 2
  omega

/-- Whatever comes first, the end of the text or that of the block, a text in front of a zero is the
one that reading finds. -/
theorem Block.beforeNul_eq {b : Block} {text : String} {rest : List UInt8}
    (h : b.bytes = Text.bytes text ++ 0 :: rest) (hnul : '\x00' ∉ text.toList) :
    Text.beforeNul b.text = text := by
  have hpos : ∀ x ∈ Text.bytes text, decide (x ≠ 0) = true := by
    intro x hx
    have hzero : 0 ∉ Text.bytes text := (Text.zero_mem_bytes_iff text).not.mpr hnul
    simpa using ne_of_mem_of_not_mem hx hzero
  have hzeros : (List.replicate b.capacity (0 : UInt8)).takeWhile (· ≠ 0) = [] := by
    cases b.capacity <;> rfl
  have hpadded : (Text.bytes b.text ++ List.replicate b.capacity 0).takeWhile (· ≠ 0) =
      Text.bytes text := by
    rw [← List.take_append_drop b.capacity (Text.bytes b.text ++ _), ← bytes, h, List.append_assoc,
      List.takeWhile_append_of_pos hpos]
    simp
  apply Text.eq_of_bytes_eq
  rw [Text.bytes_beforeNul, ← hpadded, List.takeWhile_append, hzeros]
  split
  · next hall => rw [List.append_nil, (List.takeWhile_prefix _).eq_of_length hall]
  · rfl

def Memory.bytes (mem : Memory) (a : Addr) : List UInt8 :=
  (mem.blocks.get? a).elim [] Block.bytes

/-- A store is refused and leaves the memory, or it fits a block and replaces what that holds. -/
theorem Machine.write_cases (a : Addr) (text : String) (s : Machine) :
    (∃ e, (s.write a text).1 = .error e ∧ (s.write a text).2.memory = s.memory) ∨
    ∃ b, s.memory.blocks.get? a = some b ∧ text.utf8ByteSize + 1 ≤ b.capacity ∧
      (s.write a text).1 = .ok () ∧ (s.write a text).2.memory =
        { s.memory with blocks := s.memory.blocks.set a ⟨b.capacity, text⟩ } := by
  by_cases hfail : s.writes ∈ s.setup.failWrites
  · exact .inl ⟨.badAddress a, by simp [write, hfail]⟩
  cases hget : s.memory.blocks.get? a with
  | none => exact .inl ⟨.badAddress a, by simp [write, Memory.write, hfail, hget]⟩
  | some b =>
    by_cases hfit : b.capacity < text.utf8ByteSize + 1
    · exact .inl ⟨.overflow a text.utf8ByteSize, by simp [write, Memory.write, hfail, hget, hfit]⟩
    · exact .inr ⟨b, rfl, Nat.le_of_not_lt hfit, by simp [write, Memory.write, hfail, hget, hfit]⟩

theorem Machine.alloc_cases (size : Nat) (s : Machine) :
    (∃ e, (s.alloc size).1 = .error e ∧ (s.alloc size).2.memory = s.memory) ∨
    ∃ a, (s.alloc size).1 = .ok a ∧
      (s.alloc size).2.memory.blocks = s.memory.blocks.set a ⟨size, ""⟩ := by
  by_cases hfail : s.allocs ∈ s.setup.failAllocs
  · exact .inl ⟨.outOfMemory size, by simp [alloc, hfail]⟩
  by_cases hlimit : s.memory.limit.any (· < size)
  · exact .inl ⟨.outOfMemory size, by simp [alloc, Memory.alloc, hfail, hlimit]⟩
  · exact .inr ⟨⟨s.memory.next⟩, by simp [alloc, Memory.alloc, hfail, hlimit]⟩

/-- The sandbox keeps to the contract. -/
def textStore : TextStore interpreter where
  block s a := s.memory.bytes a
  alloc_ok := by
    intro size s a s' h
    have hs' : (s.alloc size).2 = s' := congrArg Prod.snd h
    subst hs'
    obtain ⟨e, herror, -⟩ | ⟨_, hok, hblocks⟩ := s.alloc_cases size
    · cases herror.symm.trans (congrArg Prod.fst h)
    cases hok.symm.trans (congrArg Prod.fst h)
    simp only [Memory.bytes, hblocks, Table.get?_set]
    exact ⟨by simp [Block.length_bytes], fun a' ha => by rw [if_neg ha]⟩
  alloc_error := by
    intro size s e s' h
    have hs' : (s.alloc size).2 = s' := congrArg Prod.snd h
    subst hs'
    obtain ⟨_, -, hmemory⟩ | ⟨_, hok, -⟩ := s.alloc_cases size
    · rw [hmemory]
    · cases hok.symm.trans (congrArg Prod.fst h)
  free := by
    intro a s a' ha
    simp only [interpreter, Memory.bytes, Memory.free, Table.get?_erase, if_neg ha]
  setCallback := rfl
  write_ok := by
    intro a text s s' h _
    have hs' : (s.write a text).2 = s' := congrArg Prod.snd h
    subst hs'
    obtain ⟨e, herror, -⟩ | ⟨b, hget, hfit, -, hmemory⟩ := s.write_cases a text
    · cases herror.symm.trans (congrArg Prod.fst h)
    simp only [Memory.bytes, hmemory, hget, Table.get?_set, if_true]
    refine ⟨?_, Block.bytes_of_fits hfit, fun a' ha => by rw [if_neg ha]⟩
    exact (Block.length_bytes _).trans (Block.length_bytes b).symm
  write_error := by
    intro a text s e s' h
    have hs' : (s.write a text).2 = s' := congrArg Prod.snd h
    subst hs'
    obtain ⟨_, -, hmemory⟩ | ⟨_, -, -, hok, -⟩ := s.write_cases a text
    · exact ⟨by rw [hmemory], fun a' => congrArg (·.read a') hmemory⟩
    · cases hok.symm.trans (congrArg Prod.fst h)
  read := by
    intro s a text rest h hnul
    simp only [Memory.bytes] at h
    simp only [interpreter, Memory.read]
    cases hget : s.memory.blocks.get? a with
    | none => simp [hget] at h
    | some b =>
      rw [hget] at h
      exact congrArg Except.ok (Block.beforeNul_eq h hnul)

end LispBridge.Sandbox
