import LispBridge.Proofs.Bridge.ChannelHistory
import Mathlib.Data.List.TakeWhile

/-!
# What becomes of the calls on a channel

The host gets the requests in the order of the calls (`Channel.calls_eq_receipts_append`), and a
call ends by what is done about its own request (`Channel.outcome?_eq_ok_iff`,
`Channel.outcome?_eq_error_iff`, `Channel.settles_other`), whatever the order in which many of them
are answered: `Channel.delivery`.
-/

namespace LispBridge.Bridge.Channel

/-- The calls that are made while the host receives. -/
def accepted (actions : List Action) : List (Nat × String) :=
  calls (actions.takeWhile (· ≠ .close))

/-- The host has received the call's request, and has not answered it or let it go since. -/
def Holds (actions : List Action) (id : Nat) : Prop :=
  ∃ past request later, actions = past ++ .receive :: later ∧
    (after past).receive.1 = some (id, request) ∧ ∀ a ∈ later, ¬a.Settles id

variable {c : Channel} {a : Action} {actions later : List Action} {id other n : Nat} {addr : Addr}
  {call : Nat × String} {woken : Woken}

/-! ## What the host receives -/

/-- Nobody receives any more, and nothing waits to be received. -/
def Shut (c : Channel) : Prop := c.listening = false ∧ c.queued = []

theorem Shut.act (h : c.Shut) : (c.act a).Shut := by
  cases a with
  | suspend request =>
    rw [Channel.act, suspend_of_not_listening h.1]
    exact h
  | receive =>
    simp only [Channel.act, receive, h.2]
    exact h
  | resume | abandon => exact ⟨listening_settle.trans h.1, queued_settle.trans h.2⟩
  | close => exact ⟨rfl, rfl⟩

theorem Shut.receipt?_eq_none (h : c.Shut) : c.receipt? a = none := by
  cases a with
  | receive => simp only [receipt?, receive, h.2]
  | _ => rfl

theorem Shut.receiptsFrom_eq_nil (h : c.Shut) : c.receiptsFrom actions = [] := by
  induction actions generalizing c with
  | nil => rfl
  | cons a actions ih =>
    rw [receiptsFrom, h.receipt?_eq_none, ih h.act]
    rfl

theorem shut_of_close_mem (h : .close ∈ actions) : (after actions).Shut := by
  induction actions using List.reverseRecOn with
  | nil => cases h
  | append_singleton actions a ih =>
    rw [after_concat]
    obtain h | h := List.mem_append.mp h
    · exact (ih h).act
    · cases List.mem_singleton.mp h
      exact ⟨rfl, rfl⟩

theorem receipts_append_of_shut (h : (after actions).Shut) :
    receipts (actions ++ later) = receipts actions := by
  rw [receipts_append, h.receiptsFrom_eq_nil, List.append_nil]

@[simp] theorem receipts_append_close :
    receipts (actions ++ .close :: later) = receipts actions := by
  have hshut : (after (actions ++ [.close])).Shut := shut_of_close_mem (by simp)
  rw [List.append_cons, receipts_append_of_shut hshut, receipts_concat]
  exact List.append_nil _

/-- While the host receives, the calls are those whose requests it got, then those in the queue. -/
theorem calls_eq_receipts_append (h : .close ∉ actions) : (after actions).listening = true ∧
    calls actions = receipts actions ++ (after actions).queued := by
  induction actions using List.reverseRecOn with
  | nil => exact ⟨rfl, rfl⟩
  | append_singleton actions a ih =>
    obtain ⟨hlistening, hcalls⟩ := ih fun hmem => h (List.mem_append_left _ hmem)
    rw [after_concat, calls_concat, receipts_concat, ← next_after, hcalls]
    cases a with
    | suspend request =>
      simp [act, suspend_of_listening hlistening, receipt?, Action.request?, hlistening]
    | receive =>
      obtain ⟨hqueued, hreceive⟩ | ⟨call, rest, hqueued, hreceive⟩ := (after actions).receive_cases
      · simp [act, receipt?, Action.request?, hreceive, hqueued, hlistening]
      · simp [act, receipt?, Action.request?, hreceive, hqueued, hlistening]
    | resume | abandon => simp [act, resume, abandon, receipt?, Action.request?, hlistening]
    | close => exact absurd (List.mem_append_right _ (.head _)) h

theorem accepted_eq_calls (h : .close ∉ actions) : accepted actions = calls actions := by
  rw [accepted, List.takeWhile_eq_self_iff.mpr]
  exact fun a ha => decide_eq_true fun hclose => h (hclose ▸ ha)

theorem accepted_append_close (h : .close ∉ actions) :
    accepted (actions ++ .close :: later) = calls actions := by
  rw [accepted, List.takeWhile_append_of_pos, List.takeWhile_cons_of_neg, List.append_nil]
  · simp
  · exact fun a ha => decide_eq_true fun hclose => h (hclose ▸ ha)

theorem receipts_isPrefix_calls : receipts actions <+: calls actions := by
  by_cases h : .close ∈ actions
  · obtain ⟨past, later, rfl, hpast⟩ := List.eq_append_cons_of_mem h
    refine List.IsPrefix.trans ?_ calls_isPrefix
    rw [receipts_append_close, (calls_eq_receipts_append hpast).2]
    exact List.prefix_append ..
  · rw [(calls_eq_receipts_append h).2]
    exact List.prefix_append ..

/-- A call in the queue has not been received. -/
theorem not_mem_receipts_of_mem_queued (h : call ∈ (after actions).queued) :
    call.1 ∉ (receipts actions).map Prod.fst := by
  have hopen : .close ∉ actions := fun hclose => by
    rw [(shut_of_close_mem hclose).2] at h
    cases h
  have hnodup : ((calls actions).map Prod.fst).Nodup := by
    rw [map_fst_calls]
    exact List.nodup_range
  rw [(calls_eq_receipts_append hopen).2, List.map_append] at hnodup
  exact fun hmem => (List.nodup_append.mp hnodup).2.2 _ hmem _ (List.mem_map_of_mem h) rfl

theorem lt_length_calls_of_mem_queued (h : call ∈ (after actions).queued) :
    call.1 < (calls actions).length := by
  rw [← next_after]
  refine (numbered actions).mem_iff.mp ?_
  simp only [numbers, List.mem_append]
  exact .inl (.inl (List.mem_map_of_mem h))

theorem lt_length_calls_of_mem_receipts (h : id ∈ (receipts actions).map Prod.fst) :
    id < (calls actions).length := by
  have hmem := (receipts_isPrefix_calls.map Prod.fst).subset h
  rwa [map_fst_calls, List.mem_range] at hmem

/-- The host can still receive all that waits. -/
theorem receiptsFrom_replicate (h : c.queued.length = n) :
    c.receiptsFrom (List.replicate n .receive) = c.queued := by
  induction n generalizing c with
  | zero => exact (List.length_eq_zero_iff.mp h).symm
  | succ n ih =>
    obtain ⟨hqueued, -⟩ | ⟨call, rest, hqueued, hreceive⟩ := c.receive_cases
    · rw [hqueued] at h
      cases h
    · rw [hqueued] at h
      rw [List.replicate_succ, receiptsFrom, receipt?, act, hreceive, ih (Nat.succ.inj h), hqueued]
      rfl

/-! ## What the host holds -/

theorem Action.Settles.receipt?_eq_none (h : a.Settles id) : c.receipt? a = none := by
  cases h <;> rfl

theorem receipt?_eq_some_iff :
    c.receipt? a = some call ↔ a = .receive ∧ c.receive.1 = some call := by
  cases a <;> simp [receipt?]

theorem holds_concat : Holds (actions ++ [a]) id ↔ (Holds actions id ∧ ¬a.Settles id) ∨
    ∃ request, (after actions).receipt? a = some (id, request) := by
  constructor
  · rintro ⟨past, request, later, hsplit, hreceive, hlater⟩
    obtain ⟨rfl, hlast, rfl⟩ | ⟨rest, rfl, rfl⟩ := concat_eq_append_cons_iff.mp hsplit
    · exact .inr ⟨request, receipt?_eq_some_iff.mpr ⟨hlast.symm, hreceive⟩⟩
    · obtain ⟨hrest, ha⟩ := List.forall_mem_append.mp hlater
      exact .inl ⟨⟨past, request, rest, rfl, hreceive, hrest⟩, ha a (.head _)⟩
  · rintro (⟨⟨past, request, later, rfl, hreceive, hlater⟩, ha⟩ | ⟨request, hreceipt⟩)
    · have hall := List.forall_mem_append.mpr ⟨hlater, List.forall_mem_singleton.mpr ha⟩
      exact ⟨past, request, later ++ [a], by simp, hreceive, hall⟩
    · obtain ⟨rfl, hreceive⟩ := receipt?_eq_some_iff.mp hreceipt
      exact ⟨actions, request, [], rfl, hreceive, nofun⟩

theorem holds_iff : Holds actions id ↔ ∃ call ∈ (after actions).pending, call.1 = id := by
  induction actions using List.reverseRecOn with
  | nil =>
    refine iff_of_false ?_ nofun
    rintro ⟨past, _, later, hsplit, -⟩
    cases past <;> cases hsplit
  | append_singleton actions a ih =>
    rw [holds_concat, ih, after_concat]
    simp only [mem_pending_act]
    constructor
    · rintro (⟨⟨call, hcall, rfl⟩, ha⟩ | ⟨request, hreceipt⟩)
      · exact ⟨call, .inl ⟨hcall, ha⟩, rfl⟩
      · exact ⟨_, .inr hreceipt, rfl⟩
    · rintro ⟨call, ⟨hcall, ha⟩ | hreceipt, rfl⟩
      · exact .inl ⟨⟨call, hcall, rfl⟩, ha⟩
      · exact .inr ⟨call.2, hreceipt⟩

theorem Holds.mem_receipts (h : Holds actions id) : id ∈ (receipts actions).map Prod.fst := by
  obtain ⟨past, request, later, rfl, hreceive, -⟩ := h
  have hreceipt : (after past).receipt? .receive = some (id, request) := hreceive
  rw [List.append_cons, receipts_append, receipts_concat, hreceipt]
  simp

/-! ## How calls end -/

theorem mem_outcomes_after : (id, woken) ∈ (after actions).outcomes ↔
    ∃ past b later, actions = past ++ b :: later ∧ Ends (after past) b id woken := by
  induction actions using List.reverseRecOn with
  | nil =>
    refine iff_of_false nofun ?_
    rintro ⟨past, b, later, hsplit, -⟩
    cases past <;> cases hsplit
  | append_singleton actions a ih =>
    rw [after_concat, mem_outcomes_act, ih]
    constructor
    · rintro (⟨past, b, later, rfl, hends⟩ | hends)
      · exact ⟨past, b, later ++ [a], by simp, hends⟩
      · exact ⟨actions, a, [], rfl, hends⟩
    · rintro ⟨past, b, later, hsplit, hends⟩
      obtain ⟨rfl, rfl, rfl⟩ | ⟨rest, rfl, rfl⟩ := concat_eq_append_cons_iff.mp hsplit
      · exact .inr hends
      · exact .inl ⟨past, b, rest, rfl, hends⟩

theorem outcome?_after :
    (after actions).outcome? id = some woken ↔ (id, woken) ∈ (after actions).outcomes :=
  (numbered actions).outcome?_eq_some_iff

/-- A call is answered by the answer to its own request. -/
theorem outcome?_eq_ok_iff : (after actions).outcome? id = some (.ok addr) ↔
    ∃ past later, actions = past ++ .resume id addr :: later ∧ Holds past id := by
  rw [outcome?_after, mem_outcomes_after]
  constructor
  · rintro ⟨past, b, later, rfl, hends⟩
    cases hends with
    | resume hcall => exact ⟨past, later, rfl, holds_iff.mpr ⟨_, hcall, rfl⟩⟩
  · rintro ⟨past, later, rfl, hholds⟩
    obtain ⟨call, hcall, rfl⟩ := holds_iff.mp hholds
    exact ⟨past, _, later, rfl, .resume hcall⟩

/-- A call that the host let go or never received, when it ends, fails. -/
theorem Ends.lost {past : List Action} {b : Action} (h : Ends (after past) b id (.error ⟨⟩))
    (hsplit : actions = past ++ b :: later) :
    (b = .abandon id ∧ Holds past id) ∨ .close ∈ actions ∧ id < (calls actions).length ∧
      id ∉ (receipts actions).map Prod.fst := by
  subst hsplit
  cases h with
  | abandon hcall => exact .inl ⟨rfl, holds_iff.mpr ⟨_, hcall, rfl⟩⟩
  | close hcall =>
    have hlt := lt_length_calls_of_mem_queued hcall
    refine .inr ⟨by simp, Nat.lt_of_lt_of_le hlt calls_isPrefix.length_le, ?_⟩
    rw [receipts_append_close]
    exact not_mem_receipts_of_mem_queued hcall
  | suspend hlistening =>
    have hclose : .close ∈ past := by
      by_contra hopen
      cases hlistening.symm.trans (calls_eq_receipts_append hopen).1
    rw [next_after]
    refine .inr ⟨by simp [hclose], ?_, ?_⟩
    · rw [List.append_cons]
      refine Nat.lt_of_lt_of_le ?_ calls_isPrefix.length_le
      simp [calls_concat, Action.request?]
    · rw [receipts_append_of_shut (shut_of_close_mem hclose)]
      exact fun hmem => Nat.lt_irrefl _ (lt_length_calls_of_mem_receipts hmem)

/-- A call that was made before or after the host left, and that was not received, has failed. -/
theorem outcome?_of_not_received (hclose : .close ∈ actions) (hid : id < (calls actions).length)
    (hnot : id ∉ (receipts actions).map Prod.fst) :
    (after actions).outcome? id = some (.error ⟨⟩) := by
  have hmem := (numbered actions).mem_iff.mpr (next_after ▸ hid)
  simp only [numbers, (shut_of_close_mem hclose).2, List.map_nil, List.nil_append,
    List.mem_append] at hmem
  obtain hmem | hmem := hmem
  · obtain ⟨call, hcall, hid⟩ := List.mem_map.mp hmem
    exact absurd (holds_iff.mpr ⟨call, hcall, hid⟩).mem_receipts hnot
  · obtain ⟨⟨_, ⟨⟨⟩⟩ | addr⟩, houtcome, rfl⟩ := List.mem_map.mp hmem
    · exact outcome?_after.mpr houtcome
    · obtain ⟨past, later, rfl, hholds⟩ := outcome?_eq_ok_iff.mp (outcome?_after.mpr houtcome)
      refine absurd ?_ hnot
      rw [receipts_append, List.map_append]
      exact List.mem_append_left _ hholds.mem_receipts

/-- A call fails just if its own request was let go, or was not received when the host left. -/
theorem outcome?_eq_error_iff : (after actions).outcome? id = some (.error ⟨⟩) ↔
    (∃ past later, actions = past ++ .abandon id :: later ∧ Holds past id) ∨
      .close ∈ actions ∧ id < (calls actions).length ∧
        id ∉ (receipts actions).map Prod.fst := by
  constructor
  · intro h
    obtain ⟨past, b, later, hsplit, hends⟩ := mem_outcomes_after.mp (outcome?_after.mp h)
    obtain ⟨rfl, hholds⟩ | hlost := hends.lost hsplit
    · exact .inl ⟨past, later, hsplit, hholds⟩
    · exact .inr hlost
  · rintro (⟨past, later, rfl, hholds⟩ | ⟨hclose, hid, hnot⟩)
    · obtain ⟨call, hcall, rfl⟩ := holds_iff.mp hholds
      exact outcome?_after.mpr (mem_outcomes_after.mpr ⟨past, _, later, rfl, .abandon hcall⟩)
    · exact outcome?_of_not_received hclose hid hnot

theorem Ends.eq_of_settles (h : Ends c a other woken) (ha : a.Settles id) : other = id := by
  cases ha <;> cases h <;> rfl

/-- What is done about one request leaves the other calls as they are. -/
theorem settles_other (ha : a.Settles id) (hne : other ≠ id) :
    (after (actions ++ [a])).outcome? other = (after actions).outcome? other ∧
      (Holds (actions ++ [a]) other ↔ Holds actions other) ∧
      (after (actions ++ [a])).queued = (after actions).queued := by
  refine ⟨Option.ext fun woken => ?_, ?_, ?_⟩
  · rw [outcome?_after, outcome?_after, after_concat, mem_outcomes_act]
    exact or_iff_left fun hends => hne (hends.eq_of_settles ha)
  · have hnot : ¬a.Settles other := fun h => by cases h <;> cases ha <;> exact hne rfl
    rw [holds_concat, ha.receipt?_eq_none]
    simp [hnot]
  · rw [after_concat]
    cases ha <;> exact queued_settle

/-- The host gets the requests of the calls that are made while it receives, in the order of the
calls: what it has not got it can still get, unless it left, and then the calls have failed. A call
ends at most once. It ends well just if the host held its own request and answered it, and it fails
just if the host held its own request and let it go, or left and had not received it. What is done
about one request is nothing to the other calls. -/
theorem delivery (actions : List Action) :
    (∀ request, ((after actions).suspend request).1 = (calls actions).length) ∧
    (∃ rest, accepted actions = receipts actions ++ rest ∧
      (.close ∉ actions →
        receipts (actions ++ List.replicate rest.length .receive) = accepted actions) ∧
      (.close ∈ actions → ∀ call ∈ rest, (after actions).outcome? call.1 = some (.error ⟨⟩))) ∧
    ((after actions).outcomes.map Prod.fst).Nodup ∧
    (∀ later, (after actions).outcomes <+: (after (actions ++ later)).outcomes) ∧
    (∀ id addr, (after actions).outcome? id = some (.ok addr) ↔
      ∃ past later, actions = past ++ .resume id addr :: later ∧ Holds past id) ∧
    (∀ id, (after actions).outcome? id = some (.error ⟨⟩) ↔
      (∃ past later, actions = past ++ .abandon id :: later ∧ Holds past id) ∨
        .close ∈ actions ∧ id < (calls actions).length ∧
          id ∉ (receipts actions).map Prod.fst) ∧
    (∀ a id other, Action.Settles id a → other ≠ id →
      (after (actions ++ [a])).outcome? other = (after actions).outcome? other ∧
        (Holds (actions ++ [a]) other ↔ Holds actions other) ∧
        (after (actions ++ [a])).queued = (after actions).queued) := by
  refine ⟨fun request => ?_, ?_, (numbered actions).nodup_outcomes, fun later => outcomes_isPrefix,
    fun id addr => outcome?_eq_ok_iff, fun id => outcome?_eq_error_iff,
    fun a id other => settles_other⟩
  · rw [← next_after, suspend]
    split <;> rfl
  · by_cases hclose : .close ∈ actions
    · obtain ⟨past, later, rfl, hpast⟩ := List.eq_append_cons_of_mem hclose
      have hcalls := (calls_eq_receipts_append hpast).2
      refine ⟨(after past).queued, ?_, fun hopen => absurd hclose hopen, fun _ call hcall => ?_⟩
      · rw [accepted_append_close hpast, receipts_append_close, hcalls]
      · have hends : Ends (after past) .close call.1 (.error ⟨⟩) := .close hcall
        exact outcome?_after.mpr (mem_outcomes_after.mpr ⟨past, _, later, rfl, hends⟩)
    · have hcalls := (calls_eq_receipts_append hclose).2
      refine ⟨(after actions).queued, ?_, fun _ => ?_, fun h => absurd h hclose⟩
      · rw [accepted_eq_calls hclose, hcalls]
      · rw [accepted_eq_calls hclose, hcalls, receipts_append, receiptsFrom_replicate rfl]

/-- Of two requests that the host holds it answers the later one and lets the other go; it leaves
before it receives a third. -/
theorem delivery_out_of_order : ∃ actions : List Action,
    calls actions = [(0, "dread 3"), (1, "x"), (2, "y"), (3, "z")] ∧
    receipts actions = [(0, "dread 3"), (1, "x")] ∧
    (after actions).outcome? 1 = some (.ok ⟨64⟩) ∧
    ∀ id ∈ [0, 2, 3], (after actions).outcome? id = some (.error ⟨⟩) := by
  let past : List Action :=
    [.suspend "dread 3", .suspend "x", .suspend "y", .receive, .receive]
  obtain ⟨-, -, -, -, hok, herror, -⟩ := delivery
    (past ++ [.resume 1 ⟨64⟩, .abandon 0, .close, .suspend "z"])
  refine ⟨past ++ [.resume 1 ⟨64⟩, .abandon 0, .close, .suspend "z"], rfl, rfl, ?_, ?_⟩
  · refine (hok 1 ⟨64⟩).mpr ⟨past, _, rfl, past.dropLast, "x", [], rfl, rfl, nofun⟩
  · intro id hid
    refine (herror id).mpr ?_
    simp only [List.mem_cons, List.not_mem_nil, or_false] at hid
    obtain rfl | rfl | rfl := hid
    · refine .inl ⟨past ++ [.resume 1 ⟨64⟩], _, rfl, past.take 3, "dread 3",
        [.receive, .resume 1 ⟨64⟩], rfl, rfl, ?_⟩
      rintro a (_ | ⟨_, _ | ⟨_, ⟨⟩⟩⟩) <;> rintro ⟨⟩
    · exact .inr (by decide)
    · exact .inr (by decide)

end LispBridge.Bridge.Channel
