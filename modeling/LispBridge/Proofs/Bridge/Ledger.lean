import Mathlib.Data.List.Perm.Basic
import LispBridge.Bridge.Buffer

/-!
# What a journal says is in force

`Standing.next` replays a journal: it keeps the slot, the outlet, whether an evaluation has been
entered, and the blocks in use. `Lawful` journals are those of one session; every event of theirs
is one that `Standing.Allows`. The main facts are `Lawful.conserve` (allocated blocks are freed or
still in use) and, for an allocator that hands out no block in use, `Lawful.nodup_allocated` and
`Lawful.not_mem_touched` (no block comes twice, and none is touched after it is freed).
-/

namespace LispBridge.Bridge

/-! ## Events -/

namespace Event

/-- The block that an event brings into use. -/
def allocated? : Event → Option Addr
  | .alloc _ (.ok addr) => some addr
  | _ => none

/-- The block that an event gives back. -/
def freed? : Event → Option Addr
  | .free addr => some addr
  | _ => none

/-- The block whose text an event stores or reads. -/
def touched? : Event → Option Addr
  | .write addr _ _ | .read addr _ => some addr
  | _ => none

/-- Events that a handler can cause while it works out an answer. -/
def Quiet : Event → Prop
  | .terminate | .note _ => True
  | _ => False

/-- Events by which a session looks after its blocks and its outlet. -/
def Upkeep : Event → Prop
  | .alloc .. | .free _ | .write .. | .read .. | .callback _ => True
  | _ => False

end Event

/-- The blocks that a journal brings into use, in order. -/
def allocated (ev : List Event) : List Addr := ev.filterMap Event.allocated?

/-- The blocks that a journal gives back, in order. -/
def freed (ev : List Event) : List Addr := ev.filterMap Event.freed?

/-- The blocks that a journal stores to or reads from, in order. -/
def touched (ev : List Event) : List Addr := ev.filterMap Event.touched?

/-! ## Standings -/

/-- What is in force at a moment. -/
structure Standing where
  /-- The slot is taken. -/
  occupied : Bool := false
  /-- An evaluation has been entered and has not come back. -/
  inside : Bool := false
  /-- The outlet is set. -/
  outlet : Bool := false
  /-- Blocks are being given back. -/
  closing : Bool := false
  /-- The blocks in use, the latest first. -/
  live : List Buffer := []
  deriving DecidableEq, Repr

namespace Standing

/-- What is in force after an event. -/
def next (st : Standing) : Event → Standing
  | .alloc size (.ok addr) => { st with live := ⟨addr, size⟩ :: st.live }
  | .free addr => { st with closing := true, live := st.live.eraseP (·.addr = addr) }
  | .callback present => { st with outlet := present }
  | .enter _ => { st with inside := true }
  | .leave _ => { st with inside := false }
  | .occupy => { st with occupied := true }
  | .release => { st with occupied := false, closing := false }
  | _ => st

/-- The addresses of the blocks in use. -/
def addrs (st : Standing) : List Addr := st.live.map Buffer.addr

/-- The events a session may go on with. Blocks are had before any is given back; the outlet is
clear whenever a block is had or given back; only blocks in use are touched or given back. -/
def Allows (st : Standing) : Event → Prop
  | .alloc .. => st.inside = false ∧ st.outlet = false ∧ st.closing = false
  | .free addr => st.inside = false ∧ st.outlet = false ∧ addr ∈ st.addrs
  | .write addr .. => addr ∈ st.addrs
  | .read addr _ => st.inside = false ∧ addr ∈ st.addrs
  | .callback _ | .enter _ => st.inside = false ∧ st.closing = false
  | .leave _ | .ask _ | .wake _ => st.inside = true
  | .terminate | .note _ => True
  | .occupy | .release => False

/-- The event brings no block into use that is in use already. -/
def Spares (st : Standing) : Event → Prop
  | .alloc _ (.ok addr) => addr ∉ st.addrs
  | _ => True

/-- The event stores its text if that is ASCII and fits the block with its end. -/
def Accepts (st : Standing) : Event → Prop
  | .write addr text r => isAscii text = true →
      (∃ b ∈ st.live, b.addr = addr ∧ text.utf8ByteSize + 1 ≤ b.capacity) → r = .ok ()
  | _ => True

instance (st : Standing) (e : Event) : Decidable (st.Spares e) := by
  unfold Spares; split <;> infer_instance

instance (st : Standing) (e : Event) : Decidable (st.Accepts e) := by
  unfold Accepts; split <;> infer_instance

/-- What is in force after a journal. -/
def after (st : Standing) (ev : List Event) : Standing := ev.foldl next st

@[simp] theorem after_nil (st : Standing) : st.after [] = st := rfl

@[simp] theorem after_cons (st : Standing) (e : Event) (ev : List Event) :
    st.after (e :: ev) = (st.next e).after ev := rfl

@[simp] theorem after_append (st : Standing) (ev ev' : List Event) :
    st.after (ev ++ ev') = (st.after ev).after ev' := List.foldl_append

theorem addrs_free (st : Standing) (addr : Addr) :
    (st.next (.free addr)).addrs = st.addrs.erase addr := by
  simp only [addrs, next, List.erase_eq_eraseP, List.eraseP_map]
  congr 2
  funext b
  exact Bool.eq_iff_iff.mpr (by simpa using ⟨Eq.symm, Eq.symm⟩)

end Standing

/-- Whether each event of a journal is as `P` asks, given what is in force before it. -/
def Along (P : Standing → Event → Prop) : Standing → List Event → Prop
  | _, [] => True
  | st, e :: ev => P st e ∧ Along P (st.next e) ev

instance decidableAlong (P : Standing → Event → Prop) [∀ st e, Decidable (P st e)] :
    (st : Standing) → (ev : List Event) → Decidable (Along P st ev)
  | _, [] => .isTrue trivial
  | st, e :: ev => @instDecidableAnd _ _ _ (decidableAlong P (st.next e) ev)

/-- A session may go on with these events. -/
abbrev Lawful : Standing → List Event → Prop := Along Standing.Allows

/-- No block is brought into use that is in use already. -/
abbrev Fresh : Standing → List Event → Prop := Along Standing.Spares

/-- Every ASCII text that fits its block is stored. -/
abbrev Accepting : Standing → List Event → Prop := Along Standing.Accepts

/-! ## Journals that go on -/

section
variable {P : Standing → Event → Prop} {st : Standing} {ev ev' : List Event}

theorem along_append : Along P st (ev ++ ev') ↔ Along P st ev ∧ Along P (st.after ev) ev' := by
  induction ev generalizing st with
  | nil => simp [Along]
  | cons e ev ih => simp [Along, ih, and_assoc]

/-- Where nothing changes what is in force, the events can be looked at one by one. -/
theorem along_iff_of_next_eq_self (h : ∀ e ∈ ev, st.next e = st) :
    Along P st ev ↔ ∀ e ∈ ev, P st e := by
  induction ev with
  | nil => simp [Along]
  | cons e ev ih =>
    obtain ⟨he, h⟩ := List.forall_mem_cons.mp h
    rw [Along, he, ih h, List.forall_mem_cons]

/-- The events of an evaluation that is the first one of its bridge. -/
theorem between_eq {journal body : List Event}
    (h : journal = [] ++ .occupy :: (body ++ [.release])) : body = journal.tail.dropLast := by
  rw [h, List.nil_append, List.tail_cons, List.dropLast_concat]

theorem Lawful.allows_of_mem {e : Event} (h : Lawful st ev) (he : e ∈ ev) :
    ∃ st' : Standing, st'.Allows e := by
  obtain ⟨past, rest, rfl⟩ := List.append_of_mem he
  exact ⟨_, (along_append.mp h).2.1⟩

theorem after_eq_self (h : ∀ e ∈ ev, st.next e = st) : st.after ev = st := by
  induction ev with
  | nil => rfl
  | cons e ev ih =>
    obtain ⟨he, h⟩ := List.forall_mem_cons.mp h
    rw [Standing.after_cons, he, ih h]

theorem Lawful.occupied (h : Lawful st ev) : (st.after ev).occupied = st.occupied := by
  induction ev generalizing st with
  | nil => rfl
  | cons e ev ih =>
    rw [Standing.after_cons, ih h.2]
    cases e with
    | alloc _ r => cases r <;> rfl
    | occupy | release => exact h.1.elim
    | _ => rfl

/-! ## Blocks -/

/-- Every block in use before or brought into use is given back or still in use. -/
theorem Lawful.conserve (h : Lawful st ev) :
    ((st.after ev).addrs ++ freed ev).Perm (st.addrs ++ allocated ev) := by
  induction ev generalizing st with
  | nil => exact .refl _
  | cons e ev ih =>
    have ih := ih h.2
    cases e with
    | alloc size r =>
      cases r with
      | error _ => exact ih
      | ok addr => exact ih.trans List.perm_middle.symm
    | free addr =>
      have hmem : addr ∈ st.addrs := h.1.2.2
      rw [Standing.addrs_free] at ih
      calc (st.after (.free addr :: ev)).addrs ++ addr :: freed ev
        _ |>.Perm (addr :: ((st.after (.free addr :: ev)).addrs ++ freed ev)) := List.perm_middle
        _ |>.Perm (addr :: (st.addrs.erase addr ++ allocated ev)) := ih.cons addr
        _ |>.Perm (st.addrs ++ allocated ev) := (List.perm_cons_erase hmem).symm.append_right _
    | _ => exact ih

/-- Once a block has been given back, the others follow and no more are had. -/
theorem Lawful.allocated_eq_nil (h : Lawful st ev) (hc : st.closing = true) :
    allocated ev = [] := by
  induction ev generalizing st with
  | nil => rfl
  | cons e ev ih =>
    cases e with
    | alloc size r => exact absurd hc (by simp [h.1.2.2])
    | occupy | release => exact h.1.elim
    | free => exact ih h.2 rfl
    | _ => exact ih h.2 hc

theorem Lawful.closing_of_closing (h : Lawful st ev) (hc : st.closing = true) :
    (st.after ev).closing = true := by
  induction ev generalizing st with
  | nil => exact hc
  | cons e ev ih =>
    refine ih h.2 ?_
    cases e with
    | alloc _ r => cases r <;> exact hc
    | occupy | release => exact h.1.elim
    | free => rfl
    | _ => exact hc

/-- Nothing has been given back while more may be had. -/
theorem Lawful.freed_eq_nil (h : Lawful st ev) (hc : (st.after ev).closing = false) :
    freed ev = [] := by
  induction ev generalizing st with
  | nil => rfl
  | cons e ev ih =>
    cases e with
    | free => exact absurd hc (by simp [Lawful.closing_of_closing h.2 rfl])
    | _ => exact ih h.2 hc

theorem Fresh.nodup_addrs (hf : Fresh st ev) (hn : st.addrs.Nodup) : (st.after ev).addrs.Nodup := by
  induction ev generalizing st with
  | nil => exact hn
  | cons e ev ih =>
    refine ih hf.2 ?_
    cases e with
    | alloc size r =>
      cases r with
      | error _ => exact hn
      | ok addr => exact List.nodup_cons.mpr ⟨hf.1, hn⟩
    | free addr => rw [Standing.addrs_free]; exact hn.erase addr
    | _ => exact hn

/-- With an allocator that hands out no block in use, no block is had twice. -/
theorem Lawful.nodup_allocated (h : Lawful st ev) (hf : Fresh st ev) (hn : st.addrs.Nodup) :
    (allocated ev).Nodup ∧ ∀ addr ∈ allocated ev, addr ∉ st.addrs := by
  induction ev generalizing st with
  | nil => exact ⟨List.nodup_nil, by simp [allocated]⟩
  | cons e ev ih =>
    cases e with
    | alloc size r =>
      cases r with
      | error _ => exact ih h.2 hf.2 hn
      | ok addr =>
        obtain ⟨hnd, hdisj⟩ := ih h.2 hf.2 (List.nodup_cons.mpr ⟨hf.1, hn⟩)
        refine ⟨List.nodup_cons.mpr ⟨fun hmem => ?_, hnd⟩, fun a ha => ?_⟩
        · exact hdisj addr hmem List.mem_cons_self
        rcases List.mem_cons.mp ha with rfl | ha
        · exact hf.1
        · exact fun hmem => hdisj a ha (List.mem_cons_of_mem _ hmem)
    | free addr =>
      have hnil : allocated ev = [] := Lawful.allocated_eq_nil h.2 rfl
      change (allocated ev).Nodup ∧ ∀ a ∈ allocated ev, a ∉ st.addrs
      simp [hnil]
    | _ => exact (ih h.2 hf.2 hn :)

/-- A block that is no longer in use is neither touched nor given back. -/
theorem Lawful.not_mem_touched {addr : Addr} (h : Lawful st ev) (hc : st.closing = true)
    (ha : addr ∉ st.addrs) : addr ∉ touched ev ∧ addr ∉ freed ev := by
  induction ev generalizing st with
  | nil => simp [touched, freed]
  | cons e ev ih =>
    cases e with
    | alloc => exact absurd hc (by simp [h.1.2.2])
    | occupy | release => exact h.1.elim
    | free b =>
      have hb : b ∈ st.addrs := h.1.2.2
      have ih := ih h.2 rfl (by
        rw [Standing.addrs_free]; exact fun hmem => ha (List.mem_of_mem_erase hmem))
      refine ⟨ih.1, fun hmem => ?_⟩
      rcases List.mem_cons.mp hmem with rfl | hmem
      · exact ha hb
      · exact ih.2 hmem
    | write b =>
      have ih := ih h.2 hc ha
      refine ⟨fun hmem => ?_, ih.2⟩
      rcases List.mem_cons.mp hmem with rfl | hmem
      · exact ha h.1
      · exact ih.1 hmem
    | read b =>
      have ih := ih h.2 hc ha
      refine ⟨fun hmem => ?_, ih.2⟩
      rcases List.mem_cons.mp hmem with rfl | hmem
      · exact ha h.1.2
      · exact ih.1 hmem
    | _ => exact ih h.2 hc ha

/-! ## The outlet -/

/-- An outlet that is set and in the end clear has been cleared before any block is given back. -/
theorem Lawful.exists_clear (h : Lawful st ev) (ho : st.outlet = true)
    (ho' : (st.after ev).outlet = false) :
    ∃ ev₁ ev₂, ev = ev₁ ++ .callback false :: ev₂ ∧ freed ev₁ = [] := by
  induction ev generalizing st with
  | nil => exact absurd ho (by simpa using ho')
  | cons e ev ih =>
    have extend (hnext : (st.next e).outlet = true) (hfree : e.freed? = none) :
        ∃ ev₁ ev₂, e :: ev = ev₁ ++ .callback false :: ev₂ ∧ freed ev₁ = [] := by
      obtain ⟨ev₁, ev₂, rfl, hnil⟩ := ih h.2 hnext ho'
      exact ⟨e :: ev₁, ev₂, rfl, by simp [freed, hfree, ← hnil]⟩
    cases e with
    | alloc _ r => cases r <;> exact extend ho rfl
    | free => exact absurd ho (by simp [h.1.2.1])
    | occupy | release => exact h.1.elim
    | callback present =>
      cases present with
      | false => exact ⟨[], ev, rfl, rfl⟩
      | true => exact extend rfl rfl
    | _ => exact extend ho rfl

end

end LispBridge.Bridge
