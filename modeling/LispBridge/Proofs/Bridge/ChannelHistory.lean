import LispBridge.Bridge.Channel
import Mathlib.Data.List.Induction
import Mathlib.Data.List.Nodup

/-!
# What is done to a channel

Calls, and what the host does, come in any order. A call's number is the number of the calls before
it. What one action can end is in `Channel.Ends`, and what the host holds after it is in
`Channel.mem_pending_act`. Each call that was made is queued, held by the host, or at an end, and
it is so just once: `Channel.numbered`.
-/

namespace LispBridge.Bridge.Channel

inductive Action
  | suspend (request : String)
  | receive
  | resume (id : Nat) (addr : Addr)
  | abandon (id : Nat)
  | close
  deriving DecidableEq, Repr

/-- The action answers the call, or lets it go. -/
inductive Action.Settles (id : Nat) : Action → Prop
  | resume {addr} : Settles id (.resume id addr)
  | abandon : Settles id (.abandon id)

def Action.request? : Action → Option String
  | .suspend request => some request
  | _ => none

def act (c : Channel) : Action → Channel
  | .suspend request => (c.suspend request).2
  | .receive => c.receive.2
  | .resume id addr => c.resume id addr
  | .abandon id => c.abandon id
  | .close => c.close

/-- The request that the host gets by an action. -/
def receipt? (c : Channel) : Action → Option (Nat × String)
  | .receive => c.receive.1
  | _ => none

/-- A new channel after the actions. -/
def after (actions : List Action) : Channel := actions.foldl act {}

/-- The requests that the host gets from a channel, in the order of time. -/
def receiptsFrom (c : Channel) : List Action → List (Nat × String)
  | [] => []
  | a :: rest => (c.receipt? a).toList ++ (c.act a).receiptsFrom rest

def receipts (actions : List Action) : List (Nat × String) := receiptsFrom {} actions

/-- The requests of the calls that are made, with the numbers of the calls. -/
def calls (actions : List Action) : List (Nat × String) :=
  (actions.filterMap Action.request?).zipIdx.map Prod.swap

/-- What an action to a channel ends. -/
inductive Ends (c : Channel) : Action → Nat → Woken → Prop
  | resume {call addr} : call ∈ c.pending → Ends c (.resume call.1 addr) call.1 (.ok addr)
  | abandon {call} : call ∈ c.pending → Ends c (.abandon call.1) call.1 (.error ⟨⟩)
  | close {call} : call ∈ c.queued → Ends c .close call.1 (.error ⟨⟩)
  | suspend {request} : c.listening = false → Ends c (.suspend request) c.next (.error ⟨⟩)

variable {c : Channel} {a : Action} {actions later : List Action} {id other : Nat}
  {request : String} {call : Nat × String} {woken : Woken}

/-! ## Runs -/

@[simp] theorem after_concat : after (actions ++ [a]) = (after actions).act a :=
  List.foldl_concat ..

@[simp] theorem receiptsFrom_append {actions : List Action} :
    ∀ c : Channel, c.receiptsFrom (actions ++ later) =
      c.receiptsFrom actions ++ (actions.foldl act c).receiptsFrom later := by
  induction actions with
  | nil => exact fun _ => rfl
  | cons a actions ih =>
    intro c
    simp only [List.cons_append, receiptsFrom, ih, List.foldl_cons, List.append_assoc]

theorem receipts_append :
    receipts (actions ++ later) = receipts actions ++ (after actions).receiptsFrom later :=
  receiptsFrom_append {}

@[simp] theorem receipts_concat :
    receipts (actions ++ [a]) = receipts actions ++ ((after actions).receipt? a).toList := by
  rw [receipts_append, receiptsFrom, receiptsFrom, List.append_nil]

@[simp] theorem length_calls :
    (calls actions).length = (actions.filterMap Action.request?).length := by
  simp [calls]

@[simp] theorem calls_concat : calls (actions ++ [a]) =
    calls actions ++ a.request?.toList.map fun request => ((calls actions).length, request) := by
  rw [length_calls]
  cases a <;> simp [calls, Action.request?, List.zipIdx_append]

theorem map_fst_calls : (calls actions).map Prod.fst = List.range (calls actions).length := by
  induction actions using List.reverseRecOn with
  | nil => rfl
  | append_singleton actions a ih => cases a <;> simp [Action.request?, ih, List.range_succ]

theorem calls_isPrefix : calls actions <+: calls (actions ++ later) := by
  induction later using List.reverseRecOn with
  | nil => exact ⟨[], by rw [List.append_nil, List.append_nil]⟩
  | append_singleton later a ih =>
    rw [← List.append_assoc, calls_concat]
    exact ih.trans (List.prefix_append ..)

/-- An action of a longer run is the last one, or it is an action of the run before that. -/
theorem concat_eq_append_cons_iff {past : List Action} {b : Action} :
    actions ++ [a] = past ++ b :: later ↔ (past = actions ∧ b = a ∧ later = []) ∨
      ∃ rest, later = rest ++ [a] ∧ actions = past ++ b :: rest := by
  constructor
  · intro h
    obtain rfl | ⟨rest, x, rfl⟩ := List.eq_nil_or_concat later
    · obtain ⟨rfl, hb⟩ := List.append_inj' h rfl
      cases hb
      exact .inl ⟨rfl, rfl, rfl⟩
    · rw [List.concat_eq_append, ← List.cons_append, ← List.append_assoc] at h
      obtain ⟨rfl, hx⟩ := List.append_inj' h rfl
      cases hx
      exact .inr ⟨rest, List.concat_eq_append, rfl⟩
  · rintro (⟨rfl, rfl, rfl⟩ | ⟨rest, rfl, rfl⟩)
    · rfl
    · simp

/-! ## What an action does -/

theorem suspend_of_listening (h : c.listening = true) : (c.suspend request).2 =
    { c with next := c.next + 1, queued := c.queued ++ [(c.next, request)] } := by
  simp only [suspend, h, if_true]

theorem suspend_of_not_listening (h : c.listening = false) : (c.suspend request).2 =
    { c with next := c.next + 1, outcomes := c.outcomes ++ [(c.next, .error ⟨⟩)] } := by
  simp only [suspend, h, Bool.false_eq_true, if_false]

@[simp] theorem pending_suspend : (c.suspend request).2.pending = c.pending := by
  unfold suspend
  split <;> rfl

@[simp] theorem next_suspend : (c.suspend request).2.next = c.next + 1 := by
  unfold suspend
  split <;> rfl

@[simp] theorem outcomes_receive : c.receive.2.outcomes = c.outcomes := by
  unfold receive
  split <;> rfl

@[simp] theorem next_receive : c.receive.2.next = c.next := by
  unfold receive
  split <;> rfl

@[simp] theorem listening_settle : (c.settle id woken).listening = c.listening := by
  unfold settle
  split <;> rfl

@[simp] theorem next_settle : (c.settle id woken).next = c.next := by
  unfold settle
  split <;> rfl

@[simp] theorem queued_settle : (c.settle id woken).queued = c.queued := by
  unfold settle
  split <;> rfl

theorem receive_cases (c : Channel) :
    (c.queued = [] ∧ c.receive = (none, c)) ∨ ∃ call rest, c.queued = call :: rest ∧
      c.receive = (some call, { c with
        queued := rest
        pending := c.pending ++ [call]
        received := c.received ++ [call] }) := by
  unfold receive
  split
  · next h => exact .inl ⟨h, rfl⟩
  · next call rest h => exact .inr ⟨call, rest, h, rfl⟩

theorem settle_cases (c : Channel) (id : Nat) (woken : Woken) :
    ((∀ call ∈ c.pending, call.1 ≠ id) ∧ c.settle id woken = c) ∨
      ((∃ call ∈ c.pending, call.1 = id) ∧ c.settle id woken = { c with
        pending := c.pending.filter (·.1 ≠ id)
        outcomes := c.outcomes ++ [(id, woken)] }) := by
  unfold settle
  split
  · next h => exact .inr ⟨by simpa using h, rfl⟩
  · next h =>
    refine .inl ⟨fun call hcall hid => h ?_, rfl⟩
    exact List.any_eq_true.mpr ⟨call, hcall, decide_eq_true hid⟩

theorem mem_pending_settle :
    call ∈ (c.settle id woken).pending ↔ call ∈ c.pending ∧ call.1 ≠ id := by
  obtain ⟨hnone, h⟩ | ⟨-, h⟩ := c.settle_cases id woken
  · rw [h]
    exact (and_iff_left_of_imp (hnone call)).symm
  · simp [h]

theorem mem_outcomes_settle {w : Woken} : (other, w) ∈ (c.settle id woken).outcomes ↔
    (other, w) ∈ c.outcomes ∨ (∃ call ∈ c.pending, call.1 = id) ∧ other = id ∧ w = woken := by
  obtain ⟨hnone, h⟩ | ⟨hsome, h⟩ := c.settle_cases id woken
  · rw [h, or_iff_left]
    rintro ⟨⟨call, hcall, hid⟩, -⟩
    exact hnone call hcall hid
  · simp [h, hsome]

theorem Action.settles_iff : a.Settles id ↔ (∃ addr, a = .resume id addr) ∨ a = .abandon id := by
  constructor
  · rintro (⟨⟩ | ⟨⟩)
    · exact .inl ⟨_, rfl⟩
    · exact .inr rfl
  · rintro (⟨addr, rfl⟩ | rfl)
    · exact .resume
    · exact .abandon

/-- What the host holds after an action is what it held and did not settle, and what it gets. -/
theorem mem_pending_act : call ∈ (c.act a).pending ↔
    (call ∈ c.pending ∧ ¬a.Settles call.1) ∨ c.receipt? a = some call := by
  rw [Action.settles_iff]
  cases a with
  | suspend request => simp [act, receipt?]
  | receive =>
    obtain ⟨-, h⟩ | ⟨first, rest, -, h⟩ := c.receive_cases
    · simp [act, receipt?, h]
    · simp [act, receipt?, h, eq_comm]
  | resume id addr => simp [act, resume, receipt?, mem_pending_settle, eq_comm]
  | abandon id => simp [act, abandon, receipt?, mem_pending_settle, eq_comm]
  | close => simp [act, close, receipt?]

/-- The calls that are at an end after an action are the earlier ones and those that it ends. -/
theorem mem_outcomes_act :
    (id, woken) ∈ (c.act a).outcomes ↔ (id, woken) ∈ c.outcomes ∨ Ends c a id woken := by
  cases a with
  | suspend request =>
    cases h : c.listening with
    | true =>
      rw [act, suspend_of_listening h]
      refine (or_iff_left fun hends => ?_).symm
      cases hends with
      | suspend hshut => cases h.symm.trans hshut
    | false =>
      rw [act, suspend_of_not_listening h]
      simp only [List.mem_append, List.mem_singleton, Prod.mk.injEq]
      refine or_congr_right ⟨?_, ?_⟩
      · rintro ⟨rfl, rfl⟩
        exact .suspend h
      · rintro ⟨⟩
        exact ⟨rfl, rfl⟩
  | receive =>
    rw [act, outcomes_receive, or_iff_left nofun]
  | resume id' addr =>
    rw [act, resume, mem_outcomes_settle]
    refine or_congr_right ⟨?_, ?_⟩
    · rintro ⟨⟨call, hcall, rfl⟩, rfl, rfl⟩
      exact .resume hcall
    · rintro ⟨hcall⟩
      exact ⟨⟨_, hcall, rfl⟩, rfl, rfl⟩
  | abandon id' =>
    rw [act, abandon, mem_outcomes_settle]
    refine or_congr_right ⟨?_, ?_⟩
    · rintro ⟨⟨call, hcall, rfl⟩, rfl, rfl⟩
      exact .abandon hcall
    · rintro ⟨⟩
      exact ⟨⟨_, ‹_›, rfl⟩, rfl, rfl⟩
  | close =>
    simp only [act, close, List.mem_append, List.mem_map, Prod.mk.injEq]
    refine or_congr_right ⟨?_, ?_⟩
    · rintro ⟨call, hcall, rfl, rfl⟩
      exact .close hcall
    · rintro ⟨⟩
      exact ⟨_, ‹_›, rfl, rfl⟩

theorem outcomes_act_isPrefix : c.outcomes <+: (c.act a).outcomes := by
  have hsettle (id : Nat) (woken : Woken) : c.outcomes <+: (c.settle id woken).outcomes := by
    obtain ⟨-, h⟩ | ⟨-, h⟩ := c.settle_cases id woken
    · exact ⟨[], by rw [List.append_nil, h]⟩
    · exact h ▸ List.prefix_append ..
  cases a with
  | suspend request =>
    cases h : c.listening with
    | true => exact ⟨[], by rw [List.append_nil, act, suspend_of_listening h]⟩
    | false =>
      rw [act, suspend_of_not_listening h]
      exact List.prefix_append ..
  | receive => exact ⟨[], by rw [List.append_nil, act, outcomes_receive]⟩
  | resume id addr => exact hsettle id (.ok addr)
  | abandon id => exact hsettle id (.error ⟨⟩)
  | close => exact List.prefix_append ..

theorem outcomes_isPrefix : (after actions).outcomes <+: (after (actions ++ later)).outcomes := by
  induction later using List.reverseRecOn with
  | nil => exact ⟨[], by rw [List.append_nil, List.append_nil]⟩
  | append_singleton later a ih =>
    rw [← List.append_assoc, after_concat]
    exact ih.trans outcomes_act_isPrefix

/-! ## Where the calls are -/

/-- The numbers of the calls that are queued, that the host holds, and that are at an end. -/
def numbers (c : Channel) : List Nat :=
  c.queued.map Prod.fst ++ c.pending.map Prod.fst ++ c.outcomes.map Prod.fst

/-- Each call that was made is queued, held or at an end, and it is so just once. -/
def Numbered (c : Channel) : Prop := c.numbers.Perm (List.range c.next)

theorem Numbered.nodup (h : c.Numbered) : c.numbers.Nodup := h.nodup_iff.mpr List.nodup_range

theorem Numbered.mem_iff (h : c.Numbered) : id ∈ c.numbers ↔ id < c.next :=
  (List.Perm.mem_iff h).trans List.mem_range

theorem Numbered.nodup_pending (h : c.Numbered) : (c.pending.map Prod.fst).Nodup :=
  (List.nodup_append.mp (List.nodup_append.mp h.nodup).1).2.1

theorem Numbered.nodup_outcomes (h : c.Numbered) : (c.outcomes.map Prod.fst).Nodup :=
  (List.nodup_append.mp h.nodup).2.1

theorem Numbered.outcome?_eq_some_iff (h : c.Numbered) :
    c.outcome? id = some woken ↔ (id, woken) ∈ c.outcomes := by
  rw [outcome?, List.lookup_eq_some_iff]
  constructor
  · rintro ⟨before, rest, hsplit, -⟩
    simp [hsplit]
  · intro hmem
    obtain ⟨before, rest, hsplit⟩ := List.append_of_mem hmem
    refine ⟨before, rest, hsplit, fun p hp => bne_iff_ne.mpr fun hid => ?_⟩
    have hnodup := h.nodup_outcomes
    rw [hsplit, List.map_append, List.map_cons] at hnodup
    exact (List.nodup_append.mp hnodup).2.2 _ (List.mem_map_of_mem hp) _ (.head _) hid.symm

theorem Numbered.settle (h : c.Numbered) : (c.settle id woken).Numbered := by
  obtain ⟨-, hsettle⟩ | ⟨⟨call, hcall, rfl⟩, hsettle⟩ := c.settle_cases id woken <;> rw [hsettle]
  · exact h
  · have hmem := List.mem_map_of_mem (f := Prod.fst) hcall
    have hfilter : (c.pending.filter (·.1 ≠ call.1)).map Prod.fst =
        (c.pending.map Prod.fst).erase call.1 := by
      rw [h.nodup_pending.erase_eq_filter, List.filter_map]
      exact congrArg _ (List.filter_congr fun x _ => Bool.eq_iff_iff.mpr (by simp))
    refine List.Perm.trans ?_ h
    have hpending := (List.perm_cons_erase hmem).symm
    rw [← hfilter] at hpending
    simp only [numbers, List.map_append, List.map_cons, List.map_nil, List.append_assoc]
    refine List.Perm.append_left _ ?_
    refine List.Perm.trans ?_ (hpending.append_right _)
    rw [← List.append_assoc, List.cons_append]
    exact List.perm_append_singleton ..

theorem Numbered.act (h : c.Numbered) : (c.act a).Numbered := by
  cases a with
  | suspend request =>
    have hnext := (List.Perm.append_right [c.next] h).trans (.of_eq List.range_succ.symm)
    cases hlistening : c.listening with
    | true =>
      rw [Channel.act, suspend_of_listening hlistening]
      refine List.Perm.trans ?_ hnext
      simp only [numbers, List.map_append, List.map_cons, List.map_nil, List.append_assoc]
      refine List.Perm.append_left _ ?_
      rw [← List.append_assoc _ _ [c.next]]
      exact List.perm_append_comm
    | false =>
      rw [Channel.act, suspend_of_not_listening hlistening]
      refine List.Perm.trans (.of_eq ?_) hnext
      simp [numbers]
  | receive =>
    obtain ⟨-, hreceive⟩ | ⟨call, rest, hqueued, hreceive⟩ := c.receive_cases
    · rw [Channel.act, hreceive]
      exact h
    · rw [Channel.act, hreceive]
      refine List.Perm.trans ?_ h
      simp only [numbers, hqueued, List.map_append, List.map_cons, List.map_nil]
      refine List.Perm.append_right _ ?_
      rw [← List.append_assoc]
      exact List.perm_append_singleton ..
  | resume id addr => exact h.settle
  | abandon id => exact h.settle
  | close =>
    refine List.Perm.trans ?_ h
    simp only [Channel.act, close, numbers, List.map_append, List.map_map, List.map_nil,
      List.nil_append, List.append_assoc]
    rw [← List.append_assoc]
    exact List.perm_append_comm

theorem numbered (actions : List Action) : (after actions).Numbered := by
  induction actions using List.reverseRecOn with
  | nil => exact .refl _
  | append_singleton actions a ih =>
    rw [after_concat]
    exact ih.act

/-- The number that a call gets is the number of the calls before it. -/
theorem next_after : (after actions).next = (calls actions).length := by
  induction actions using List.reverseRecOn with
  | nil => rfl
  | append_singleton actions a ih =>
    rw [after_concat, calls_concat, List.length_append, ← ih]
    cases a <;> simp [act, resume, abandon, close, Action.request?]

end LispBridge.Bridge.Channel
