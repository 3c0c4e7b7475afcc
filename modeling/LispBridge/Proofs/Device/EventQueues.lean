import LispBridge.Proofs.Device.History

/-!
# What waits in an event's queue

The values added to a queue are those taken from it, in the same order, and then those that wait
(`Emulator.pushes_eq`); nothing else changes a queue, and a queue without a value is not kept
(`Emulator.Tidy`). `Emulator.queues_are_fifo` says what requests see of that.
-/

namespace LispBridge.Device

variable {event : String} {v : HostValue} {rest : List HostValue} {a : Action}
  {actions : List Action}

namespace Action

/-- The value that an action adds to an event's queue, if it adds one. -/
def pushed? (event : String) : Action → Option HostValue
  | .pushEvent e v => if e = event then some v else none
  | .request r =>
    if r.op = "push_event" ∧ r.args[0]? = some event then r.args[1]?.map HostValue.ofWire else none
  | _ => none

theorem pushed?_eq_some_iff : a.pushed? event = some v ↔ a.Pushes event v := by
  constructor
  · intro h
    cases a with
    | pushEvent e w =>
      simp only [pushed?, Option.ite_none_right_eq_some, Option.some.injEq] at h
      obtain ⟨rfl, rfl⟩ := h
      exact .direct
    | request r =>
      simp only [pushed?, Option.ite_none_right_eq_some, Option.map_eq_some_iff] at h
      obtain ⟨⟨hop, he⟩, s, hs, rfl⟩ := h
      exact .request hop he hs
    | setPin | click => cases h
  · rintro (_ | ⟨hop, he, hs⟩)
    · simp [pushed?]
    · simp [pushed?, hop, he, hs]

theorem Pops.not_pushes (h : a.Pops event) {e : String} : ¬a.Pushes e v := by
  cases h with
  | request hop =>
    rintro (_ | hop')
    exact absurd (hop.symm.trans hop') (by decide)

end Action

/-- The values that actions add to an event's queue, in order. -/
def pushes (event : String) (actions : List Action) : List HostValue :=
  actions.filterMap (Action.pushed? event)

namespace Emulator

variable {d : Emulator}

/-- The value that an action takes from an event's queue, if it takes one, with its answer. -/
def popped? (d : Emulator) (event : String) : Action → Option (HostValue × Except Fault String)
  | .request r =>
    if r.op = "pop_event" ∧ r.args[0]? = some event then
      (d.queue event).head?.map fun v => (v, (d.apply r).1)
    else none
  | _ => none

/-- The values that actions take from an event's queue, in order, with their answers. -/
def popped (event : String) : Emulator → List Action → List (HostValue × Except Fault String)
  | _, [] => []
  | d, a :: actions => (d.popped? event a).toList ++ popped event (d.act a) actions

theorem popped?_of_not_pops (h : ¬a.Pops event) : d.popped? event a = none := by
  cases a with
  | request r =>
    rw [popped?, if_neg]
    rintro ⟨hop, he⟩
    exact h (.request hop he)
  | _ => rfl

theorem popped?_of_pops (h : a.Pops event) (hq : d.queue event = v :: rest) :
    d.popped? event a = some (v, .ok v.wire) ∧ d.act a = d.setQueue event rest := by
  cases h with
  | request hop he =>
    have happly := apply_dequeue_cons hop he hq
    rw [popped?, if_pos ⟨hop, he⟩, hq, act, happly]
    exact ⟨rfl, rfl⟩

theorem popped?_of_pops_nil (h : a.Pops event) (hq : d.queue event = []) :
    d.popped? event a = none ∧ d.act a = d := by
  cases h with
  | request hop he =>
    rw [popped?, if_pos ⟨hop, he⟩, hq, act, apply_dequeue_nil hop he hq]
    exact ⟨rfl, rfl⟩

/-! ## One action -/

/-- An action that neither adds to a queue nor takes from it leaves it alone. -/
theorem get?_events_act (hpushes : ∀ v, ¬a.Pushes event v) (hpops : ¬a.Pops event) :
    (d.act a).events.get? event = d.events.get? event := by
  have heffect := d.act_effect a
  generalize d.act a = d' at heffect
  cases heffect with
  | none | store | forget => rfl
  | push h =>
    rw [get?_events_pushEvent, if_neg]
    rintro rfl
    exact hpushes _ h
  | pop h =>
    rw [get?_events_setQueue, if_neg]
    rintro rfl
    exact hpops h

@[simp] theorem queue_pushEvent : (d.pushEvent event v).queue event = d.queue event ++ [v] := by
  simp [queue]

@[simp] theorem queue_setQueue : (d.setQueue event rest).queue event = rest := by
  cases rest <;> simp [queue]

/-- A queue with what is added to it is what is taken from it with the queue afterwards. -/
theorem queue_act (d : Emulator) (event : String) (a : Action) :
    d.queue event ++ (a.pushed? event).toList =
      ((d.popped? event a).map Prod.fst).toList ++ (d.act a).queue event := by
  by_cases hpops : a.Pops event
  · have hpushed : a.pushed? event = none := Option.eq_none_iff_forall_ne_some.mpr fun v hv =>
      hpops.not_pushes (Action.pushed?_eq_some_iff.mp hv)
    cases hq : d.queue event with
    | nil =>
      obtain ⟨hnone, hact⟩ := popped?_of_pops_nil hpops hq
      simp [hpushed, hnone, hact, hq]
    | cons v rest =>
      obtain ⟨hsome, hact⟩ := popped?_of_pops hpops hq
      simp [hpushed, hsome, hact]
  rw [popped?_of_not_pops hpops]
  cases hpushed : a.pushed? event with
  | some v =>
    rw [act_of_pushes (Action.pushed?_eq_some_iff.mp hpushed), queue_pushEvent]
    rfl
  | none =>
    have hpushes : ∀ v, ¬a.Pushes event v := fun v hv => by
      rw [Action.pushed?_eq_some_iff.mpr hv] at hpushed
      cases hpushed
    have hkept : (d.act a).queue event = d.queue event := by
      rw [queue, get?_events_act hpushes hpops, queue]
    simp [hkept]

/-- What holds of the values that wait and of those that an action adds holds of all that wait
afterwards. -/
theorem forall_queue_act {P : HostValue → Prop} (h : ∀ e, ∀ v ∈ d.queue e, P v)
    (hpushes : ∀ e v, a.Pushes e v → P v) (e : String) : ∀ v ∈ (d.act a).queue e, P v := by
  intro v hv
  have hmem : v ∈ d.queue e ++ (a.pushed? e).toList := by
    rw [queue_act]
    exact List.mem_append_right _ hv
  obtain hmem | hmem := List.mem_append.mp hmem
  · exact h e v hmem
  · exact hpushes e v (Action.pushed?_eq_some_iff.mp (Option.mem_toList.mp hmem))

theorem popped?_answer {t : HostValue × Except Fault String} (h : d.popped? event a = some t) :
    t.2 = .ok t.1.wire := by
  by_cases hpops : a.Pops event
  · cases hq : d.queue event with
    | nil =>
      rw [(popped?_of_pops_nil hpops hq).1] at h
      cases h
    | cons v rest =>
      rw [(popped?_of_pops hpops hq).1] at h
      cases h
      rfl
  · rw [popped?_of_not_pops hpops] at h
    cases h

/-- No queue is kept that has no value. -/
def Tidy (d : Emulator) : Prop :=
  ∀ e q, d.events.get? e = some q → q ≠ []

theorem Tidy.act (h : d.Tidy) : (d.act a).Tidy := by
  have heffect := d.act_effect a
  generalize d.act a = d' at heffect ⊢
  cases heffect with
  | none | store | forget => exact h
  | push =>
    intro e q hq
    rw [get?_events_pushEvent] at hq
    split at hq
    · cases hq
      simp
    · exact h e q hq
  | pop =>
    intro e q hq
    rw [get?_events_setQueue] at hq
    split at hq
    · split at hq <;> cases hq
      assumption
    · exact h e q hq

/-! ## All actions -/

theorem Tidy.run (h : d.Tidy) : (d.run actions).Tidy := by
  induction actions generalizing d with
  | nil => exact h
  | cons a actions ih => exact ih h.act

/-- Nothing is lost, doubled or overtaken. -/
theorem pushes_eq (d : Emulator) (event : String) (actions : List Action) :
    d.queue event ++ pushes event actions =
      (d.popped event actions).map Prod.fst ++ (d.run actions).queue event := by
  induction actions generalizing d with
  | nil => simp [pushes, popped]
  | cons a actions ih =>
    have hpushes : pushes event (a :: actions) =
        (a.pushed? event).toList ++ pushes event actions := by
      cases h : a.pushed? event <;> simp [pushes, h]
    calc d.queue event ++ pushes event (a :: actions)
      _ = (d.queue event ++ (a.pushed? event).toList) ++ pushes event actions := by
        rw [hpushes, List.append_assoc]
      _ = ((d.popped? event a).map Prod.fst).toList ++
            ((d.act a).queue event ++ pushes event actions) := by
        rw [queue_act, List.append_assoc]
      _ = _ := by
        rw [ih, popped, List.map_append, List.append_assoc, run_cons]
        cases d.popped? event a <;> rfl

theorem popped_answer {t : HostValue × Except Fault String} (h : t ∈ d.popped event actions) :
    t.2 = .ok t.1.wire := by
  induction actions generalizing d with
  | nil => cases h
  | cons a actions ih =>
    obtain h | h := List.mem_append.mp h
    · exact popped?_answer (Option.mem_toList.mp h)
    · exact ih h

/-- The values taken from a queue are the first ones added to it, in order and each answered by its
wire text, and the others wait; requests see how many. Only what adds to a queue or takes from it
changes it, and none without a value is kept. -/
theorem queues_are_fifo (counts : PinCounts) (actions : List Action) (event : String) :
    let start : Emulator := { counts }
    let d := start.run actions
    let took := start.popped event actions
    pushes event actions = took.map Prod.fst ++ d.queue event ∧ (∀ t ∈ took, t.2 = .ok t.1.wire) ∧
    d.pending event + took.length = (pushes event actions).length ∧
    (∀ r, r.op = "is_event" → r.args[0]? = some event →
      d.apply r = (.ok (if 0 < d.pending event then "#t" else "()"), d)) ∧
    (∀ r, (Action.request r).Pops event →
      (d.pending event = 0 → d.apply r = (.ok "()", d)) ∧
      ∀ v, (pushes event actions)[took.length]? = some v →
        (d.apply r).1 = .ok v.wire ∧ (d.apply r).2.pending event + 1 = d.pending event) ∧
    (∀ a, (∀ v, ¬a.Pushes event v) → ¬a.Pops event →
      (d.act a).events.get? event = d.events.get? event) ∧
    ∀ e q, d.events.get? e = some q → q ≠ [] := by
  intro start d took
  have hpushes : pushes event actions = took.map Prod.fst ++ d.queue event :=
    pushes_eq start event actions
  have htidy : start.Tidy := fun e q hq => nomatch hq
  refine ⟨hpushes, fun t => popped_answer, ?_, fun r hop he => ?_,
    fun r hpops => ⟨fun hnone => ?_, fun v hv => ?_⟩, fun a => get?_events_act, htidy.run⟩
  · rw [hpushes, List.length_append, List.length_map, pending, Nat.add_comm]
  · rw [apply_hasEvent hop he]
    cases h : decide (0 < d.pending event) <;> simp_all <;> rfl
  · obtain ⟨hop, he⟩ := hpops
    exact apply_dequeue_nil hop he (List.length_eq_zero_iff.mp hnone)
  · -- The oldest value that waits is the first one that was not taken.
    have hfirst : (d.queue event)[0]? = some v := by
      rw [hpushes, List.getElem?_append_right (by simp)] at hv
      simpa using hv
    obtain ⟨rest, hq⟩ : ∃ rest, d.queue event = v :: rest := by
      cases hqueue : d.queue event with
      | nil => simp [hqueue] at hfirst
      | cons w rest =>
        simp only [hqueue, List.getElem?_cons_zero, Option.some.injEq] at hfirst
        exact ⟨rest, by rw [hfirst]⟩
    obtain ⟨hop, he⟩ := hpops
    rw [apply_dequeue_cons hop he hq]
    exact ⟨rfl, by simp [pending, hq]⟩

/-- Two values of one event, one of them added directly, while another event and a pin are in
use. -/
theorem queues_are_fifo_interleaved :
    let actions : List Action := [.request ⟨"push_event", ["temp", "0x15"]⟩,
      .pushEvent "lamp" (.bool true), .pushEvent "temp" (.symbol "hot"), .click 0,
      .request ⟨"pop_event", ["temp"]⟩, .request ⟨"pop_event", ["none"]⟩]
    let d := ({} : Emulator).run actions
    (({} : Emulator).popped "temp" actions).map Prod.fst = [.number (.ofInt 21)] ∧
    d.apply ⟨"is_event", ["temp"]⟩ = (.ok "#t", d) ∧
    (d.apply ⟨"pop_event", ["temp"]⟩).1 = .ok "hot" ∧
    d.apply ⟨"pop_event", ["none"]⟩ = (.ok "()", d) ∧
    (d.act (.pushEvent "lamp" (.bool false))).events.get? "temp" = d.events.get? "temp" := by
  intro actions d
  obtain ⟨-, -, -, hasks, hpops, hkept, -⟩ := queues_are_fifo {} actions "temp"
  obtain ⟨-, -, -, -, hpopsNone, -, -⟩ := queues_are_fifo {} actions "none"
  have htook : (({} : Emulator).popped "temp" actions).map Prod.fst =
      [.number (.ofInt 21)] := by decide +kernel
  have hnext : (pushes "temp" actions)[(({} : Emulator).popped "temp" actions).length]? =
      some (.symbol "hot") := by decide +kernel
  have hwire : (HostValue.symbol "hot").wire = "hot" := by decide +kernel
  refine ⟨htook, ?_, ?_, ?_, ?_⟩
  · rw [hasks _ rfl rfl, if_pos (by decide +kernel)]
  · rw [((hpops _ (.request rfl rfl)).2 _ hnext).1, hwire]
  · exact (hpopsNone _ (.request rfl rfl)).1 (by decide +kernel)
  · refine hkept _ (fun v h => ?_) (fun h => nomatch h)
    exact absurd (Action.pushed?_eq_some_iff.mpr h) (by simp [Action.pushed?])

end Emulator
end LispBridge.Device
