import LispBridge.Bridge.Manager
import LispBridge.Proofs.Bridge.Ledger

/-!
# The conversation of a running evaluation

What passes between a module that stops at requests and the host that answers them. `Run.Course` is
the module's side: the stops an evaluation makes, with the state it leaves behind and finds at
each. `Round` is what the journal shows of one stop, and `Talk` what it shows of all of them. The
main statements are `drive_talk` and `drain_silent`: an evaluation with a handler is a `Talk`, and
one that nobody answers is `Silent`.
-/

namespace LispBridge.Bridge

variable {σ η α : Type}

/-! ## Handlers while the slot is taken -/

theorem Live.evaluate_of_evaluating (m : Module σ) (ask : Option (Ask σ η)) (call : Call)
    {l : Live σ η} (h : l.evaluating = true) :
    l.evaluate m ask call = (.returned (.ok none), l) := by
  simp [Live.evaluate, h]

/-- A handler's program changes neither the slot nor the settings, and leaves only quiet events. -/
theorem Program.run_quiet (m : Module σ) (p : Program η) {l : Live σ η}
    (h : l.evaluating = true) :
    (p.run m l).2.evaluating = true ∧ (p.run m l).2.settings = l.settings ∧
      ∃ during, (p.run m l).2.journal = l.journal ++ during ∧ ∀ e ∈ during, e.Quiet := by
  induction p generalizing l with
  | reply r => exact ⟨h, rfl, [], by simp [Program.run], by simp⟩
  | host next ih => exact ih l.host h
  | setHost s next ih => exact ih (l := { l with host := s }) h
  | isEvaluating next ih => exact ih l.evaluating h
  | terminate next ih =>
    obtain ⟨he, hs, during, hj, hq⟩ := ih (l := l.terminate m) h
    refine ⟨he, hs, .terminate :: during, ?_, List.forall_mem_cons.mpr ⟨trivial, hq⟩⟩
    exact hj.trans (List.append_assoc ..)
  | note n next ih =>
    obtain ⟨he, hs, during, hj, hq⟩ := ih (l := l.log (.note n)) h
    refine ⟨he, hs, .note n :: during, ?_, List.forall_mem_cons.mpr ⟨trivial, hq⟩⟩
    exact hj.trans (List.append_assoc ..)
  | evaluate call handled handler next _ ih =>
    rw [Program.run]
    simp only [Live.evaluate_of_evaluating m _ call h]
    exact ih _ h

/-! ## The module's side -/

/-- A stop of an evaluation at a request. -/
structure Stop (σ : Type) where
  request : String
  /-- The module's state when it stops. -/
  left : σ
  /-- What it is woken with. -/
  woken : Woken
  /-- The module's state when it goes on. -/
  found : σ

/-- The stops that a computation makes, in order, its value if it does not break down, and the
state it ends in. -/
inductive Run.Course : Run σ α → List (Stop σ) → Option α → σ → Prop
  | done {value s} : Course (.done value s) [] (some value) s
  | aborted {s} : Course (.aborted s) [] none s
  | noted {note next stops value s} : Course next stops value s →
      Course (.noted note next) stops value s
  | suspended {request left resume woken found stops value s} :
      Course (resume woken found) stops value s →
      Course (.suspended request left resume) (⟨request, left, woken, found⟩ :: stops) value s

/-! ## The host's side -/

/-- The text that a reply puts into an answer buffer. -/
inductive Reply.Answers (capacity : Nat) : Reply → String → Prop
  | usable {text} : isAscii text = true → text.utf8ByteSize + 1 ≤ capacity →
      Answers capacity (.answer text) text
  | unusable {text} : ¬(isAscii text = true ∧ text.utf8ByteSize + 1 ≤ capacity) →
      Answers capacity (.answer text) falseText
  | failed {message} : Answers capacity (.failed message) falseText
  | aborted : Answers capacity .aborted falseText

theorem Reply.answers_of_settle {capacity : Nat} {reply : Reply} {text : String}
    (h : reply.settle capacity = .ok text) : reply.Answers capacity text := by
  cases reply with
  | answer t =>
    simp only [settle, usable, Except.ok.injEq, Bool.and_eq_true, decide_eq_true_eq] at h
    split at h
    · next hfit => subst h; exact .usable hfit.1 hfit.2
    · next hfit => subst h; exact .unusable hfit
  | failed | aborted => cases h; constructor
  | crashed | deserted => cases h

/-- A text is stored; if that fails, falsehood is tried once. -/
inductive Posted (m : Module σ) (addr : Addr) (text : String) : σ → List Event → σ → Prop
  | stored {s s'} : m.write addr text s = (.ok (), s') →
      Posted m addr text s [.write addr text (.ok ())] s'
  | refused {s s' s'' e r} : m.write addr text s = (.error e, s') →
      m.write addr falseText s' = (r, s'') →
      Posted m addr text s [.write addr text (.error e), .write addr falseText r] s''

theorem Traced.post_posted (m : Module σ) (addr : Addr) (text : String) (t : Traced σ) :
    ∃ posts, (t.post m addr text).journal = t.journal ++ posts ∧
      Posted m addr text t.module posts (t.post m addr text).module := by
  rcases hw : m.write addr text t.module with ⟨e | _, s⟩
  · have hpost : t.post m addr text = ⟨(m.write addr falseText s).2, t.journal ++
        [.write addr text (.error e)] ++ [.write addr falseText (m.write addr falseText s).1]⟩ := by
      simp [Traced.post, Traced.write, hw]
    rw [hpost]
    exact ⟨_, List.append_assoc .., .refused hw rfl⟩
  · have hpost : t.post m addr text = ⟨s, t.journal ++ [.write addr text (.ok ())]⟩ := by
      simp [Traced.post, Traced.write, hw]
    rw [hpost]
    exact ⟨_, rfl, .stored hw⟩

section
variable (m : Module σ) (h : Handler η) (capacity : Nat) (addr : Addr)

/-- The handler's work on a request, asked on a bridge that is busy with `stop`: its reply, the
bridge after it, and the events in between. -/
structure Asked (stop : Stop σ) (reply : Reply) (l' : Live σ η) (during : List Event) : Prop where
  exists_bridge : ∃ l : Live σ η, l.module = stop.left ∧ l.evaluating = true ∧
    (h stop.request).run m l = (reply, l') ∧ l'.journal = l.journal ++ during
  quiet : ∀ e ∈ during, e.Quiet

/-- What the journal shows of a stop that is answered: the handler is asked, its answer is posted,
and the evaluation goes on with the address. -/
inductive Round : Stop σ → List Event → Prop
  | mk {stop reply l' during text posts} : Asked m h stop reply l' during →
      reply.Answers capacity text → Posted m addr text l'.module posts stop.found →
      stop.woken = .ok addr →
      Round stop (.ask stop.request :: (during ++ posts ++ [.wake (.ok addr)]))

/-- What the journal shows of an evaluation that nobody answers. -/
inductive Silent : List (Stop σ) → List Event → Prop
  | nil : Silent [] []
  | remark {n stops ev} : Silent stops ev → Silent stops (.note n :: ev)
  | wake {stop stops ev} : stop.woken = .error ⟨⟩ → stop.found = stop.left → Silent stops ev →
      Silent (stop :: stops) (.wake (.error ⟨⟩) :: ev)

/-- What the journal shows of an evaluation with a handler: one round for each stop, up to one at
which the handler leaves the caller without a result, if there is such a stop. -/
inductive Talk : List (Stop σ) → List Event → Option Break → Prop
  | nil : Talk [] [] none
  | remark {n stops ev broken} : Talk stops ev broken → Talk stops (.note n :: ev) broken
  | round {stop stops seg ev broken} : Round m h capacity addr stop seg → Talk stops ev broken →
      Talk (stop :: stops) (seg ++ ev) broken
  | broken {stop stops reply l' during ev reason} : Asked m h stop reply l' during →
      reply.settle capacity = .error reason → stop.woken = .error ⟨⟩ → stop.found = l'.module →
      Silent stops ev →
      Talk (stop :: stops) (.ask stop.request :: (during ++ .wake (.error ⟨⟩) :: ev)) (some reason)

end

/-! ## Running an evaluation -/

theorem Live.drain_silent (run : Run σ α) (l : Live σ η) :
    (l.drain run).2.evaluating = l.evaluating ∧ (l.drain run).2.settings = l.settings ∧
    ∃ stops ev, run.Course stops (l.drain run).1 (l.drain run).2.module ∧ Silent stops ev ∧
      (l.drain run).2.journal = l.journal ++ ev := by
  induction run generalizing l with
  | done value s => exact ⟨rfl, rfl, [], [], .done, .nil, (List.append_nil _).symm⟩
  | aborted s => exact ⟨rfl, rfl, [], [], .aborted, .nil, (List.append_nil _).symm⟩
  | noted note next ih =>
    obtain ⟨he, hs, stops, ev, hc, ht, hj⟩ := ih (l.log (.note note))
    exact ⟨he, hs, stops, _, .noted hc, .remark ht, hj.trans (List.append_assoc ..)⟩
  | suspended request s resume ih =>
    obtain ⟨he, hs, stops, ev, hc, ht, hj⟩ :=
      ih (.error ⟨⟩) s ((l.withModule s).log (.wake (.error ⟨⟩)))
    exact ⟨he, hs, _, _, .suspended hc, .wake rfl rfl ht, hj.trans (List.append_assoc ..)⟩

/-- A stop that is answered leaves a round in the journal. -/
theorem Live.answer_round (m : Module σ) (h : Handler η) (addr : Addr) {l l₁ : Live σ η} {s : σ}
    {request text : String} {reply : Reply} (hbusy : l.evaluating = true)
    (hrun : (h request).run m ((l.withModule s).log (.ask request)) = (reply, l₁))
    (hset : reply.settle l.settings.answerCapacity = .ok text) :
    let l' := (l₁.withTraced (l₁.toTraced.post m addr text)).log (.wake (.ok addr))
    l'.evaluating = true ∧ l'.settings = l.settings ∧ ∃ seg,
      Round m h l.settings.answerCapacity addr ⟨request, s, .ok addr, l'.module⟩ seg ∧
      l'.journal = l.journal ++ seg := by
  intro l'
  let l₀ := (l.withModule s).log (.ask request)
  obtain ⟨he, hs, during, hj, hq⟩ := (h request).run_quiet m (l := l₀) hbusy
  rw [show (h request).run m l₀ = (reply, l₁) from hrun] at he hs hj
  obtain ⟨posts, hpj, hposted⟩ := l₁.toTraced.post_posted m addr text
  have hasked : Asked m h ⟨request, s, .ok addr, l'.module⟩ reply l₁ during :=
    ⟨⟨l₀, rfl, hbusy, hrun, hj⟩, hq⟩
  refine ⟨he, hs, _, .mk hasked (Reply.answers_of_settle hset) hposted rfl, ?_⟩
  have hj₁ : l₁.journal = l.journal ++ [.ask request] ++ during := hj
  have hj' : l'.journal = l₁.journal ++ posts ++ [.wake (.ok addr)] :=
    congrArg (· ++ [Event.wake (.ok addr)]) hpj
  rw [hj', hj₁]
  simp only [List.append_assoc, List.cons_append, List.nil_append]

theorem Live.drive_talk (m : Module σ) (h : Handler η) (addr : Addr) (run : Run σ α)
    {l : Live σ η} (hbusy : l.evaluating = true) :
    (drive m (h.ask m) addr l run).2.evaluating = true ∧
    (drive m (h.ask m) addr l run).2.settings = l.settings ∧
    ∃ stops ev, run.Course stops (drive m (h.ask m) addr l run).1.1
        (drive m (h.ask m) addr l run).2.module ∧
      Talk m h l.settings.answerCapacity addr stops ev (drive m (h.ask m) addr l run).1.2 ∧
      (drive m (h.ask m) addr l run).2.journal = l.journal ++ ev := by
  induction run generalizing l with
  | done value s => exact ⟨hbusy, rfl, [], [], .done, .nil, (List.append_nil _).symm⟩
  | aborted s => exact ⟨hbusy, rfl, [], [], .aborted, .nil, (List.append_nil _).symm⟩
  | noted note next ih =>
    obtain ⟨he, hs, stops, ev, hc, ht, hj⟩ := ih (l := l.log (.note note)) hbusy
    exact ⟨he, hs, stops, _, .noted hc, .remark ht, hj.trans (List.append_assoc ..)⟩
  | suspended request s resume ih =>
    let l₀ := (l.withModule s).log (.ask request)
    rcases hrun : (h request).run m l₀ with ⟨reply, l'⟩
    have hask : h.ask m request ((l.withModule s).log (.ask request)) = (reply, l') := hrun
    rw [drive]
    simp only [hask]
    cases hset : reply.settle l.settings.answerCapacity with
    | ok text =>
      obtain ⟨he, hs, seg, hround, hj⟩ := answer_round m h addr hbusy hrun hset
      obtain ⟨he₁, hs₁, stops, ev, hc, ht, hj₁⟩ := ih (.ok addr) _ he
      refine ⟨he₁, hs₁.trans hs, _, _, .suspended hc, .round hround (hs ▸ ht), ?_⟩
      exact hj₁.trans (by rw [hj, List.append_assoc])
    | error reason =>
      obtain ⟨he, hs, during, hj, hq⟩ := (h request).run_quiet m (l := l₀) hbusy
      rw [hrun] at he hs hj
      let l₁ := l'.log (.wake (.error ⟨⟩))
      have hasked : Asked m h ⟨request, s, .error ⟨⟩, l₁.module⟩ reply l' during :=
        ⟨⟨l₀, rfl, hbusy, hrun, hj⟩, hq⟩
      obtain ⟨he₁, hs₁, stops, ev, hc, ht, hj₁⟩ := l₁.drain_silent (resume (.error ⟨⟩) l₁.module)
      refine ⟨he₁.trans he, hs₁.trans hs, _, _, .suspended hc,
        .broken hasked hset rfl rfl ht, ?_⟩
      have hj' : l'.journal = l.journal ++ [.ask request] ++ during := hj
      have hj₂ : l₁.journal = l'.journal ++ [.wake (.error ⟨⟩)] := rfl
      rw [hj₁, hj₂, hj']
      simp only [List.append_assoc, List.cons_append, List.nil_append]

/-! ## The events of a conversation -/

namespace Event

/-- The request that a handler is asked. -/
def asks? : Event → Option String
  | .ask request => some request
  | _ => none

/-- What an evaluation is woken with. -/
def wakes? : Event → Option Woken
  | .wake woken => some woken
  | _ => none

/-- Events of a conversation whose answers are stored at an address. -/
def Converses (addr : Addr) : Event → Prop
  | .ask _ | .wake _ | .terminate | .note _ => True
  | .write a _ _ => a = addr
  | _ => False

theorem Quiet.converses {addr : Addr} {e : Event} (h : e.Quiet) : e.Converses addr := by
  cases e <;> trivial

theorem Converses.next_eq {addr : Addr} {e : Event} (h : e.Converses addr) (st : Standing) :
    st.next e = st := by
  cases e <;> first | rfl | exact h.elim

theorem Converses.allows {addr : Addr} {e : Event} (h : e.Converses addr) {st : Standing}
    (hi : st.inside = true) (ha : addr ∈ st.addrs) : st.Allows e := by
  cases e with
  | write a => exact (show a = addr from h) ▸ ha
  | ask | wake => exact hi
  | terminate | note => trivial
  | _ => exact h.elim

end Event

section
variable {m : Module σ} {h : Handler η} {capacity : Nat} {addr : Addr} {stop : Stop σ}
  {stops : List (Stop σ)} {seg ev : List Event} {broken : Option Break}

theorem Posted.converses {text : String} {s s' : σ} {posts : List Event}
    (hp : Posted m addr text s posts s') : ∀ e ∈ posts, e.Converses addr := by
  cases hp <;> simp [Event.Converses]

theorem Round.converses (hr : Round m h capacity addr stop seg) : ∀ e ∈ seg, e.Converses addr := by
  obtain ⟨hasked, -, hposted, -⟩ := hr
  intro e he
  simp only [List.mem_cons, List.mem_append, List.not_mem_nil, or_false] at he
  rcases he with rfl | (he | he) | rfl
  · trivial
  · exact (hasked.quiet e he).converses
  · exact hposted.converses e he
  · trivial

theorem Silent.converses (hs : Silent stops ev) : ∀ e ∈ ev, e.Converses addr := by
  induction hs with
  | nil => simp
  | remark _ ih | wake _ _ _ ih => exact List.forall_mem_cons.mpr ⟨trivial, ih⟩

theorem Talk.converses (ht : Talk m h capacity addr stops ev broken) :
    ∀ e ∈ ev, e.Converses addr := by
  induction ht with
  | nil => simp
  | remark _ ih => exact List.forall_mem_cons.mpr ⟨trivial, ih⟩
  | round hr _ ih =>
    intro e he
    rcases List.mem_append.mp he with he | he
    · exact hr.converses e he
    · exact ih e he
  | broken hasked _ _ _ hs =>
    refine List.forall_mem_cons.mpr ⟨trivial, fun e he => ?_⟩
    rcases List.mem_append.mp he with he | he
    · exact (hasked.quiet e he).converses
    · exact List.forall_mem_cons.mpr ⟨trivial, hs.converses⟩ e he

end

/-! ## Requests and answers in order -/

/-- The requests that handlers are asked, in order. -/
def asked (ev : List Event) : List String := ev.filterMap Event.asks?

/-- What evaluations are woken with, in order. -/
def wakes (ev : List Event) : List Woken := ev.filterMap Event.wakes?

section
variable {m : Module σ} {h : Handler η} {capacity : Nat} {addr : Addr} {stop : Stop σ}
  {stops : List (Stop σ)} {seg ev ev' : List Event}

theorem asked_append : asked (ev ++ ev') = asked ev ++ asked ev' := List.filterMap_append

theorem wakes_append : wakes (ev ++ ev') = wakes ev ++ wakes ev' := List.filterMap_append

theorem asked_eq_nil (hq : ∀ e ∈ ev, e.Quiet ∨ e.Upkeep) : asked ev = [] := by
  refine List.filterMap_eq_nil_iff.mpr fun e he => ?_
  cases e <;> first | rfl | exact absurd (hq _ he) (by simp [Event.Quiet, Event.Upkeep])

theorem wakes_eq_nil (hq : ∀ e ∈ ev, e.Quiet ∨ e.Upkeep) : wakes ev = [] := by
  refine List.filterMap_eq_nil_iff.mpr fun e he => ?_
  cases e <;> first | rfl | exact absurd (hq _ he) (by simp [Event.Quiet, Event.Upkeep])

theorem Posted.upkeep {text : String} {s s' : σ} {posts : List Event}
    (hp : Posted m addr text s posts s') : ∀ e ∈ posts, e.Upkeep := by
  cases hp <;> simp [Event.Upkeep]

/-- In a round the handler is asked once, with the request, and the evaluation woken once. -/
theorem Round.asked_wakes (hr : Round m h capacity addr stop seg) :
    asked seg = [stop.request] ∧ wakes seg = [stop.woken] ∧ stop.woken = .ok addr := by
  obtain ⟨hasked, -, hposted, hwoken⟩ := hr
  rename_i during _ posts
  have hnone : ∀ e ∈ during ++ posts, e.Quiet ∨ e.Upkeep := fun e he =>
    (List.mem_append.mp he).imp (hasked.quiet e) (hposted.upkeep e)
  refine ⟨?_, ?_, hwoken⟩
  · change stop.request :: asked (during ++ posts ++ [.wake (.ok addr)]) = _
    rw [asked_append, asked_eq_nil hnone]; rfl
  · change wakes (during ++ posts ++ [.wake (.ok addr)]) = _
    rw [wakes_append, wakes_eq_nil hnone, hwoken]; rfl

theorem Silent.asked_wakes (hs : Silent stops ev) :
    asked ev = [] ∧ wakes ev = stops.map (·.woken) := by
  induction hs with
  | nil => exact ⟨rfl, rfl⟩
  | remark _ ih => exact ih
  | wake hwoken _ _ ih =>
    refine ⟨ih.1, ?_⟩
    rw [List.map_cons, hwoken, ← ih.2]
    rfl

/-- The handler is asked the requests of the stops, each once and in order, and each stop is woken
once. None is left out, and each is woken with the address, unless the handler leaves the caller
without a result. -/
theorem Talk.asked_wakes {broken : Option Break} (ht : Talk m h capacity addr stops ev broken) :
    asked ev <+: stops.map (·.request) ∧ wakes ev = stops.map (·.woken) ∧
      (broken = none →
        asked ev = stops.map (·.request) ∧ ∀ stop ∈ stops, stop.woken = .ok addr) := by
  induction ht with
  | nil => exact ⟨List.prefix_rfl, rfl, fun _ => ⟨rfl, by simp⟩⟩
  | remark _ ih => exact ih
  | round hr _ ih =>
    obtain ⟨ha, hw, hok⟩ := hr.asked_wakes
    obtain ⟨hpre, hw', hall⟩ := ih
    rw [asked_append, wakes_append, ha, hw, hw']
    refine ⟨(List.prefix_append_right_inj _).mpr hpre, rfl, fun hb => ?_⟩
    obtain ⟨ha', hok'⟩ := hall hb
    exact ⟨by rw [ha']; rfl, List.forall_mem_cons.mpr ⟨hok, hok'⟩⟩
  | @broken stop stops _ _ during ev _ hasked _ hwoken _ hs =>
    obtain ⟨ha', hw'⟩ := hs.asked_wakes
    have hnone : ∀ e ∈ during, e.Quiet ∨ e.Upkeep := fun e he => .inl (hasked.quiet e he)
    have ha :
        asked (.ask stop.request :: (during ++ .wake (.error ⟨⟩) :: ev)) = [stop.request] := by
      change stop.request :: asked (during ++ .wake (.error ⟨⟩) :: ev) = _
      rw [asked_append, asked_eq_nil hnone, List.nil_append]
      exact congrArg (stop.request :: ·) ha'
    have hw : wakes (.ask stop.request :: (during ++ .wake (.error ⟨⟩) :: ev)) =
        stop.woken :: stops.map (·.woken) := by
      change wakes (during ++ .wake (.error ⟨⟩) :: ev) = _
      rw [wakes_append, wakes_eq_nil hnone, hwoken, ← hw']
      rfl
    rw [ha, hw]
    exact ⟨List.prefix_append [stop.request] _, rfl, fun hb => nomatch hb⟩

end

end LispBridge.Bridge
