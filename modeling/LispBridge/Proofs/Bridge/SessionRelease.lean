import LispBridge.Proofs.Bridge.SessionLedger
import LispBridge.Sandbox.Interpreter

/-!
# A session gives back what it took

`Settled` says of the events of a session that its blocks are given back exactly once each, that
none is touched afterwards, and that the outlet is cleared before the first of them goes. The main
statement is `Manager.evaluate_settled`, for every module, handler and call; the one thing asked of
the module is that it hands out no block that is in use.
-/

namespace LispBridge.Bridge

variable {σ η : Type}

/-- Everything the events of a session took has been given back. -/
structure Settled (body : List Event) : Prop where
  /-- No block is had twice. -/
  nodup : (allocated body).Nodup
  /-- The blocks that were had are given back once each, and no others. -/
  count_free : ∀ addr, body.count (.free addr) = if addr ∈ allocated body then 1 else 0
  allocated_before : ∀ {past addr rest}, body = past ++ .free addr :: rest → addr ∈ allocated past
  not_touched_after : ∀ {past addr rest}, body = past ++ .free addr :: rest → addr ∉ touched rest
  /-- An outlet that is set is cleared while all blocks are still in use. -/
  cleared : ∀ {past rest}, body = past ++ .callback true :: rest →
    ∃ between final, rest = between ++ .callback false :: final ∧ freed (past ++ between) = []

theorem count_free_eq (body : List Event) (addr : Addr) :
    body.count (.free addr) = (freed body).count addr := by
  rw [freed, List.count_filterMap, List.count]
  refine List.countP_congr fun e _ => ?_
  cases e <;> simp [Event.freed?]

theorem Lawful.settled {body : List Event} {closing : Bool} (h : Lawful (.held []) body)
    (hafter : (Standing.held []).after body = { Standing.held [] with closing })
    (hf : Fresh (.held []) body) : Settled body := by
  have hnodup : (allocated body).Nodup := (h.nodup_allocated hf List.nodup_nil).1
  have hperm : (freed body).Perm (allocated body) := by
    have hconserve := h.conserve
    rwa [hafter] at hconserve
  refine ⟨hnodup, fun addr => ?_, ?_, ?_, ?_⟩
  · rw [count_free_eq, hperm.count_eq, hnodup.count]
  · rintro past addr rest rfl
    obtain ⟨hpast, hfree, -⟩ := along_append.mp h
    exact (Lawful.conserve hpast).subset (List.mem_append_left _ hfree.2.2)
  · rintro past addr rest rfl
    obtain ⟨hpast, hfree, hrest⟩ := along_append.mp h
    have hlive : ((Standing.held []).after past).addrs.Nodup :=
      Fresh.nodup_addrs (along_append.mp hf).1 List.nodup_nil
    refine (Lawful.not_mem_touched hrest rfl ?_).1
    rw [Standing.addrs_free]
    exact hlive.not_mem_erase
  · rintro past rest rfl
    obtain ⟨hpast, hset, hrest⟩ := along_append.mp h
    rw [Standing.after_append] at hafter
    obtain ⟨between, final, rfl, hnil⟩ := Lawful.exists_clear hrest rfl (by
      rw [← Standing.after_cons, hafter]; rfl)
    refine ⟨between, final, rfl, ?_⟩
    rw [freed, List.filterMap_append]
    exact List.append_eq_nil_iff.mpr ⟨Lawful.freed_eq_nil hpast hset.2, hnil⟩

/-- When an evaluation that took the slot is over, everything it took has been given back, the slot
last of all. -/
theorem Manager.evaluate_settled (m : Module σ) (handler : Option (Handler η)) (call : Call)
    (l : Live σ η) (hidle : l.evaluating = false) :
    ∃ l' body, ((Manager.ready l).evaluate m handler call).2 = .ready l' ∧
      l'.evaluating = false ∧ l'.journal = l.journal ++ .occupy :: (body ++ [.release]) ∧
      .occupy ∉ body ∧ .release ∉ body ∧ (Fresh (.held []) body → Settled body) := by
  obtain ⟨hev, -, body, hj, hproc⟩ := l.evaluate_proceedings m handler call hidle
  obtain ⟨hl, closing, hafter⟩ := hproc.lawful
  refine ⟨_, body, rfl, hev, hj, fun hmem => ?_, fun hmem => ?_, hl.settled hafter⟩
  · exact (hl.allows_of_mem hmem).choose_spec
  · exact (hl.allows_of_mem hmem).choose_spec

/-- A sandbox that refuses to store the first answer, and breaks down after its second request. -/
def refusedAnswerBridge : Live Sandbox.Machine Unit where
  module.setup := { failWrites := [2], acts := some [.suspend "task 0 1 7", .suspend "", .abort] }
  host := ()

/-- Two writes for the first answer, one for the second, and a breakdown. -/
theorem Manager.evaluate_settled_refused_answer : ∃ l' body,
    ((Manager.ready refusedAnswerBridge).evaluate Sandbox.interpreter (some minimalHandler)
      ⟨"(+ 1 2)", "", 5⟩).2 = .ready l' ∧
      refusedAnswerBridge.evaluating = false ∧ l'.evaluating = false ∧
      l'.journal = .occupy :: (body ++ [.release]) ∧ Fresh (.held []) body ∧ Settled body := by
  obtain ⟨l', body, hl', hev, hj, -, -, hsettled⟩ := Manager.evaluate_settled Sandbox.interpreter
    (some minimalHandler) ⟨"(+ 1 2)", "", 5⟩ refusedAnswerBridge rfl
  have hbody : body = l'.journal.tail.dropLast := between_eq hj
  have hfresh : Fresh (.held []) body := by
    rw [hbody, ← Manager.ready.inj hl']
    decide +kernel
  exact ⟨l', body, hl', rfl, hev, hj, hfresh, hsettled hfresh⟩

end LispBridge.Bridge
