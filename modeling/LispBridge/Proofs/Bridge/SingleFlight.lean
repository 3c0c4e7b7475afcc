import LispBridge.Proofs.Bridge.SessionRelease
import Mathlib.Logic.Relation

/-!
# One evaluation at a time

A manager moves by `Manager.Step`: whatever a host does with it between evaluations, amid one
(`Live.Amid`), and from inside a handler that is being asked (`Manager.Reachable.run`). In every
state that is reached so, `Manager.SingleFlight` holds (`Manager.single_flight`): at each moment of
the past there was one session at most and one evaluation entered at most, nothing is in force while
the slot is free, and while it is taken a call does nothing at all. The invariant is `Orderly`; it
says of the journal and of the slot that the one explains the other.
-/

namespace LispBridge.Bridge

variable {σ η α : Type}

/-! ## Journals of a manager -/

/-- The events a manager may go on with. A session begins when there is none, and ends when nothing
of it is in force any more. -/
def Standing.Admits (st : Standing) : Event → Prop
  | .occupy => st = {}
  | .release => ∃ closing, st = { Standing.held [] with closing }
  | e => st.occupied = true ∧ st.Allows e ∨ e.Quiet

theorem Event.Quiet.next_eq {e : Event} (h : e.Quiet) (st : Standing) : st.next e = st := by
  cases e <;> first | rfl | exact h.elim

theorem Event.Quiet.admits {e : Event} (h : e.Quiet) (st : Standing) : st.Admits e := by
  cases e <;> first | exact h.elim | exact .inr h

theorem Standing.Allows.admits {st : Standing} {e : Event} (h : st.Allows e)
    (ho : st.occupied = true) : st.Admits e := by
  cases e <;> first | exact h.elim | exact .inl ⟨ho, h⟩

theorem Lawful.admits {st : Standing} {ev : List Event} (h : Lawful st ev)
    (ho : st.occupied = true) : Along Standing.Admits st ev := by
  induction ev generalizing st with
  | nil => trivial
  | cons e ev ih =>
    have hocc : (st.next e).occupied = true := by
      have hone : Lawful st [e] := ⟨h.1, trivial⟩
      rw [← ho]
      exact hone.occupied
    exact ⟨h.1.admits ho, ih h.2 hocc⟩

theorem Event.Converses.admits {addr : Addr} {e : Event} (h : e.Converses addr) {st : Standing}
    (ho : st.occupied = true) (hi : st.inside = true) (ha : addr ∈ st.addrs) : st.Admits e :=
  (h.allows hi ha).admits ho

/-- While no session is active nothing is in force, whatever has been before. -/
theorem after_eq_empty {st : Standing} {ev : List Event} (h : Along Standing.Admits st ev)
    (hst : st.occupied = false → st = {}) :
    (st.after ev).occupied = false → st.after ev = {} := by
  induction ev generalizing st with
  | nil => exact hst
  | cons e ev ih =>
    refine ih h.2 fun ho => ?_
    have hadmits : st.Admits e := h.1
    cases e with
    | occupy => cases ho
    | release =>
      obtain ⟨closing, rfl⟩ := hadmits
      rfl
    | terminate | note => exact hst ho
    | alloc size r =>
      rcases hadmits with ⟨hocc, -⟩ | hq
      · cases r <;> exact absurd hocc (by simpa [Standing.next] using ho)
      · exact hq.elim
    | _ =>
      rcases hadmits with ⟨hocc, -⟩ | hq
      · exact absurd hocc (by simpa [Standing.next] using ho)
      · exact hq.elim

/-- The journal has come about event by event as `Standing.Admits` asks, and a session is active at
its end just if the slot is taken. -/
structure Orderly (j : List Event) (busy : Bool) : Prop where
  admitted : Along Standing.Admits {} j
  occupied : (({} : Standing).after j).occupied = busy

namespace Orderly

variable {j ev : List Event} {busy busy' : Bool}

theorem nil : Orderly [] false := ⟨trivial, rfl⟩

theorem after_past (h : Orderly j busy) {past : List Event} (hp : past <+: j)
    (ho : (({} : Standing).after past).occupied = false) : ({} : Standing).after past = {} := by
  obtain ⟨rest, rfl⟩ := hp
  exact after_eq_empty (along_append.mp h.admitted).1 (fun _ => rfl) ho

theorem after_eq (h : Orderly j false) : ({} : Standing).after j = {} :=
  h.after_past List.prefix_rfl h.occupied

theorem extend (h : Orderly j busy) (ha : Along Standing.Admits (({} : Standing).after j) ev)
    (ho : ((({} : Standing).after j).after ev).occupied = busy') : Orderly (j ++ ev) busy' := by
  refine ⟨along_append.mpr ⟨h.admitted, ha⟩, ?_⟩
  rw [Standing.after_append, ho]

theorem quiet (h : Orderly j busy) {e : Event} (he : e.Quiet) : Orderly (j ++ [e]) busy := by
  refine h.extend ⟨he.admits _, trivial⟩ ?_
  rw [Standing.after_cons, he.next_eq, Standing.after_nil, h.occupied]

end Orderly

theorem Live.evaluate_orderly (m : Module σ) (handler : Option (Handler η)) (call : Call)
    {l : Live σ η} (h : Orderly l.journal l.evaluating) :
    let r := l.evaluate m (handler.map (Handler.ask m)) call
    Orderly r.2.journal r.2.evaluating := by
  intro r
  cases hev : l.evaluating with
  | true =>
    have hr : r = (.returned (.ok none), l) := evaluate_of_evaluating m _ call hev
    rw [hr]
    exact h
  | false =>
    rw [hev] at h
    obtain ⟨hev', -, body, hj, hproc⟩ := l.evaluate_proceedings m handler call hev
    obtain ⟨hl, closing, hafter⟩ := hproc.lawful
    rw [hj, hev']
    have hend : (({} : Standing).next .occupy).after body = { Standing.held [] with closing } :=
      hafter
    refine h.extend ?_ ?_ <;> rw [h.after_eq]
    · refine ⟨rfl, along_append.mpr ⟨Lawful.admits hl rfl, ?_⟩⟩
      rw [hend]
      exact ⟨⟨closing, rfl⟩, trivial⟩
    · rw [Standing.after_cons, Standing.after_append, hend]
      rfl

/-! ## Bridges amid an evaluation -/

namespace Live

/-- The bridges through which an evaluation passes that nobody answers. -/
inductive Draining : Live σ η → Run σ α → Live σ η → Prop
  | here {l run} : Draining l run l
  | noted {l note next l'} : Draining (l.log (.note note)) next l' →
      Draining l (.noted note next) l'
  | woken {l request s resume l'} :
      Draining ((l.withModule s).log (.wake (.error ⟨⟩))) (resume (.error ⟨⟩) s) l' →
      Draining l (.suspended request s resume) l'

/-- The bridges through which an evaluation passes whose requests `h` answers, and on which `h` is
asked. -/
inductive Driving (m : Module σ) (h : Handler η) (addr : Addr) :
    Live σ η → Run σ α → Live σ η → Prop
  | here {l run} : Driving m h addr l run l
  | noted {l note next l'} : Driving m h addr (l.log (.note note)) next l' →
      Driving m h addr l (.noted note next) l'
  | asked {l request s resume} :
      Driving m h addr l (.suspended request s resume) ((l.withModule s).log (.ask request))
  | answered {l request s resume reply l₁ text l'} :
      (h request).run m ((l.withModule s).log (.ask request)) = (reply, l₁) →
      reply.settle l.settings.answerCapacity = .ok text →
      Driving m h addr ((l₁.withTraced (l₁.toTraced.post m addr text)).log (.wake (.ok addr)))
        (resume (.ok addr) (l₁.toTraced.post m addr text).module) l' →
      Driving m h addr l (.suspended request s resume) l'
  | deserted {l request s resume reply l₁ reason l'} :
      (h request).run m ((l.withModule s).log (.ask request)) = (reply, l₁) →
      reply.settle l.settings.answerCapacity = .error reason →
      Draining (l₁.log (.wake (.error ⟨⟩))) (resume (.error ⟨⟩) l₁.module) l' →
      Driving m h addr l (.suspended request s resume) l'

/-- The bridges between an evaluation's entry and its return, where the slot was free before. -/
inductive Amid (m : Module σ) (handler : Option (Handler η)) (call : Call) (l : Live σ η) :
    Live σ η → Prop
  | mk {session t l'} : l.evaluating = false →
      Session.acquire m l.settings call l.occupy.toTraced = (.ok session, t) →
      (let args := session.args l.settings call
        let entered := (t.setCallback m handler.isSome).record (.enter args)
        match handler with
        | some h => Driving m h session.answer.addr (l.occupy.withTraced entered)
            (m.evaluate args entered.module) l'
        | none => Draining (l.occupy.withTraced entered) (m.evaluate args entered.module) l') →
      Amid m handler call l l'

/-- The evaluation of a session is running, with or without a handler. -/
structure Inside (session : Session) (handled : Bool) (l : Live σ η) : Prop where
  orderly : Orderly l.journal l.evaluating
  standing : ({} : Standing).after l.journal = session.running handled

namespace Inside

variable {session : Session} {handled : Bool} {l l' : Live σ η}

theorem evaluating (h : Inside session handled l) : l.evaluating = true := by
  rw [← h.orderly.occupied, h.standing]
  rfl

theorem extend (h : Inside session handled l) {ev : List Event}
    (hev : ∀ e ∈ ev, e.Converses session.answer.addr) (hj : l'.journal = l.journal ++ ev)
    (he : l'.evaluating = l.evaluating) : Inside session handled l' := by
  have hnext : ∀ e ∈ ev, (session.running handled).next e = session.running handled :=
    fun e hmem => (hev e hmem).next_eq _
  have hmem : session.answer.addr ∈ (session.running handled).addrs :=
    List.mem_map_of_mem (session.answer_mem_running handled)
  have hafter : (({} : Standing).after l.journal).after ev = session.running handled := by
    rw [h.standing, after_eq_self hnext]
  refine ⟨?_, by rw [hj, Standing.after_append, hafter]⟩
  rw [hj, he]
  refine h.orderly.extend ?_ ?_
  · rw [h.standing]
    exact (along_iff_of_next_eq_self hnext).mpr fun e hmem' => (hev e hmem').admits rfl rfl hmem
  · rw [hafter, h.evaluating]
    rfl

theorem withModule (h : Inside session handled l) (s : σ) :
    Inside session handled (l.withModule s) :=
  ⟨h.orderly, h.standing⟩

theorem log (h : Inside session handled l) {e : Event} (he : e.Converses session.answer.addr) :
    Inside session handled (l.log e) :=
  h.extend (List.forall_mem_singleton.mpr he) rfl rfl

end Inside

theorem Draining.inside {session : Session} {handled : Bool} {l l' : Live σ η} {run : Run σ α}
    (hd : Draining l run l') (hi : Inside session handled l) : Inside session handled l' := by
  induction hd with
  | here => exact hi
  | noted _ ih => exact ih (hi.log trivial)
  | woken _ ih => exact ih ((hi.withModule _).log trivial)

theorem Driving.inside {m : Module σ} {h : Handler η} {session : Session} {handled : Bool}
    {l l' : Live σ η} {run : Run σ α} (hd : Driving m h session.answer.addr l run l')
    (hi : Inside session handled l) : Inside session handled l' := by
  induction hd with
  | here => exact hi
  | noted _ ih => exact ih (hi.log trivial)
  | asked => exact (hi.withModule _).log trivial
  | answered hrun hset _ ih =>
    have hbusy := hi.evaluating
    obtain ⟨he, -, seg, hround, hj⟩ := answer_round m h session.answer.addr hbusy hrun hset
    exact ih (hi.extend hround.converses hj (he.trans hbusy.symm))
  | @deserted l request s resume reply l₁ reason _ hrun hset hdrain =>
    have hasking : Inside session handled ((l.withModule s).log (.ask request)) :=
      (hi.withModule s).log trivial
    obtain ⟨he, -, during, hj, hq⟩ := (h request).run_quiet m hasking.evaluating
    rw [hrun] at he hj
    have hanswering : Inside session handled l₁ :=
      hasking.extend (fun e hmem => (hq e hmem).converses) hj (he.trans hasking.evaluating.symm)
    exact hdrain.inside (hanswering.log trivial)

theorem Amid.inside {m : Module σ} {handler : Option (Handler η)} {call : Call} {l l' : Live σ η}
    (ha : Amid m handler call l l') (ho : Orderly l.journal l.evaluating) :
    ∃ session, Inside session handler.isSome l' := by
  obtain ⟨hidle, hacq, hamid⟩ := ha
  rename_i session t
  rw [hidle] at ho
  obtain ⟨-, -, opening, hj, -, hl, hafter⟩ := Session.acquire_since hacq
  let args := session.args l.settings call
  let entered := (t.setCallback m handler.isSome).record (.enter args)
  let ev := .occupy :: (opening ++ [.callback handler.isSome, .enter args])
  have hj' : entered.journal = l.journal ++ ev := by
    change t.journal ++ [.callback handler.isSome] ++ [.enter args] = _
    rw [hj]
    simp only [occupy, log, withTraced, Traced.record, ev, List.append_assoc, List.cons_append,
      List.nil_append]
  have hafter' : (({} : Standing).after l.journal).after ev = session.running handler.isSome := by
    rw [ho.after_eq, Standing.after_cons, Standing.after_append]
    change ((Standing.held []).after opening).after _ = _
    rw [hafter]
    rfl
  have hadmits : Along Standing.Admits (({} : Standing).after l.journal) ev := by
    rw [ho.after_eq]
    refine ⟨rfl, along_append.mpr ⟨Lawful.admits hl rfl, ?_⟩⟩
    change Along _ ((Standing.held []).after opening) _
    rw [hafter]
    exact ⟨.inl ⟨rfl, rfl, rfl⟩, .inl ⟨rfl, rfl, rfl⟩, trivial⟩
  have hentered : Inside session handler.isSome (l.occupy.withTraced entered) := by
    refine ⟨?_, ?_⟩
    · change Orderly entered.journal true
      rw [hj']
      exact ho.extend hadmits (by rw [hafter']; rfl)
    · change ({} : Standing).after entered.journal = _
      rw [hj', Standing.after_append, hafter']
  refine ⟨session, ?_⟩
  cases handler with
  | some h => exact Driving.inside hamid hentered
  | none => exact Draining.inside hamid hentered

end Live

/-! ## Handlers that call back -/

/-- What a program comes to when the slot is taken all along: each evaluation that it asks for
returns nothing at once. -/
def Program.refused : Program η → Program η
  | .reply r => .reply r
  | .host next => .host fun s => (next s).refused
  | .setHost s next => .setHost s next.refused
  | .isEvaluating next => (next true).refused
  | .terminate next => .terminate next.refused
  | .note n next => .note n next.refused
  | .evaluate _ _ _ next => (next (.returned (.ok none))).refused

/-- A handler all of whose calls are turned away. -/
def Handler.refused (h : Handler η) : Handler η := fun request => (h request).refused

theorem Program.run_refused (m : Module σ) (p : Program η) {l : Live σ η}
    (hbusy : l.evaluating = true) : p.refused.run m l = p.run m l := by
  induction p generalizing l with
  | reply r => rfl
  | host next ih => exact ih l.host hbusy
  | setHost s next ih => exact ih (l := { l with host := s }) hbusy
  | isEvaluating next ih =>
    rw [run, hbusy]
    exact ih true hbusy
  | terminate next ih => exact ih (l := l.terminate m) hbusy
  | note n next ih => exact ih (l := l.log (.note n)) hbusy
  | evaluate call handled handler next _ ih =>
    rw [run]
    simp only [Live.evaluate_of_evaluating m _ call hbusy]
    exact ih _ hbusy

namespace Live

variable {α : Type} (m : Module σ) (h : Handler η)

theorem drive_refused (addr : Addr) (run : Run σ α) {l : Live σ η} (hbusy : l.evaluating = true) :
    drive m (h.refused.ask m) addr l run = drive m (h.ask m) addr l run := by
  induction run generalizing l with
  | done | aborted => rfl
  | noted note next ih => exact ih (l := l.log (.note note)) hbusy
  | suspended request s resume ih =>
    have hl₀ : ((l.withModule s).log (.ask request)).evaluating = true := hbusy
    have hask : h.refused.ask m request ((l.withModule s).log (.ask request)) =
        h.ask m request ((l.withModule s).log (.ask request)) := (h request).run_refused m hl₀
    have hafter : (h.ask m request ((l.withModule s).log (.ask request))).2.evaluating = true :=
      ((h request).run_quiet m hl₀).1
    rw [drive, drive, hask]
    cases (h.ask m request ((l.withModule s).log (.ask request))).1.settle
        l.settings.answerCapacity with
    | error reason => rfl
    | ok text => exact ih (.ok addr) _ hafter

/-- No run of a session tells its handler from one whose calls are turned away. -/
theorem run_refused (session : Session) (call : Call) {l : Live σ η} (hbusy : l.evaluating = true) :
    l.run m (some (h.refused.ask m)) session call = l.run m (some (h.ask m)) session call := by
  have hdrive := fun (run : Run σ (Except ModuleError Int)) (t : Traced σ) =>
    drive_refused m h session.answer.addr run (l := l.withTraced t) hbusy
  rw [run_eq, run_eq]
  exact congrArg (conclude m session) (hdrive _ _)

theorem evaluate_refused (call : Call) (l : Live σ η) :
    l.evaluate m (some (h.refused.ask m)) call = l.evaluate m (some (h.ask m)) call := by
  have hrun := fun (session : Session) (t : Traced σ) =>
    run_refused m h session call (l := l.occupy.withTraced t) rfl
  rw [evaluate, evaluate]
  split
  · rfl
  · simp only [hrun]

end Live

/-! ## Managers -/

namespace Manager

variable (m : Module σ)

/-- All that was done to the module of a manager. -/
def journal : Manager σ η → List Event
  | .waiting .. => []
  | .ready l => l.journal

/-- What a host, or a handler that is being asked, can do with a manager; and that an evaluation has
come somewhere. -/
inductive Step : Manager σ η → Manager σ η → Prop
  | install {mgr} (s : σ) : Step mgr (mgr.install s).2
  | evaluate {mgr} (handler : Option (Handler η)) (call : Call) :
      Step mgr (mgr.evaluate m handler call).2
  | execute {mgr} (handler : Option (Handler η)) (script : String) (taskLimit : Option Nat) :
      Step mgr (mgr.execute m handler script taskLimit).2
  | terminate {mgr} : Step mgr (mgr.terminate m)
  | setHost {mgr} (host : η) : Step mgr (mgr.setHost host)
  | note {l} (n : Note) : Step (.ready l) (.ready (l.log (.note n)))
  | amid {handler : Option (Handler η)} {call : Call} {l l' : Live σ η} :
      l.Amid m handler call l' → Step (.ready l) (.ready l')

/-- The states that a manager comes to. -/
def Reachable (mgr : Manager σ η) : Prop :=
  ∃ settings host, Relation.ReflTransGen (Step m) (.waiting settings host) mgr

variable {m}

theorem Step.orderly {mgr mgr' : Manager σ η} (hs : Step m mgr mgr')
    (ho : Orderly mgr.journal mgr.isEvaluating) : Orderly mgr'.journal mgr'.isEvaluating := by
  cases hs with
  | install s =>
    cases mgr with
    | waiting => exact .nil
    | ready => exact ho
  | evaluate handler call =>
    cases mgr with
    | waiting => exact ho
    | ready l => exact l.evaluate_orderly m handler call ho
  | execute handler script taskLimit =>
    cases mgr with
    | waiting => exact ho
    | ready l => exact l.evaluate_orderly m handler _ ho
  | terminate =>
    cases mgr with
    | waiting => exact ho
    | ready l => exact ho.quiet (e := .terminate) trivial
  | setHost => cases mgr <;> exact ho
  | note n => exact ho.quiet (e := .note n) trivial
  | amid ha =>
    obtain ⟨session, hinside⟩ := ha.inside ho
    exact hinside.orderly

theorem Reachable.orderly {mgr : Manager σ η} (hr : Reachable m mgr) :
    Orderly mgr.journal mgr.isEvaluating := by
  obtain ⟨settings, host, hsteps⟩ := hr
  induction hsteps with
  | refl => exact .nil
  | tail _ hs ih => exact hs.orderly ih

theorem Reachable.step {mgr mgr' : Manager σ η} (hr : Reachable m mgr) (hs : Step m mgr mgr') :
    Reachable m mgr' := by
  obtain ⟨settings, host, hsteps⟩ := hr
  exact ⟨settings, host, hsteps.tail hs⟩

/-- What a handler does leads to reachable states. -/
theorem Reachable.run {l : Live σ η} (hr : Reachable m (.ready l)) (p : Program η) :
    Reachable m (.ready (p.run m l).2) := by
  induction p generalizing l with
  | reply r => exact hr
  | host next ih => exact ih l.host hr
  | setHost s next ih => exact ih (hr.step (.setHost s))
  | isEvaluating next ih => exact ih l.evaluating hr
  | terminate next ih => exact ih (hr.step .terminate)
  | note n next ih => exact ih (hr.step (.note n))
  | evaluate call handled handler next _ ih =>
    have hs := hr.step (.evaluate (if handled then some handler else none) call)
    cases handled <;> exact ih _ hs

/-- What single flight asks of a manager and of its past. -/
structure SingleFlight (m : Module σ) (mgr : Manager σ η) : Prop where
  /-- Whatever was done to the module, what was in force then admits it. -/
  admitted : ∀ {past e rest}, mgr.journal = past ++ e :: rest →
    (({} : Standing).after past).Admits e
  /-- The slot is taken just while a session is active. -/
  occupied : (({} : Standing).after mgr.journal).occupied = mgr.isEvaluating
  /-- Whenever no session is active, nothing is in force. -/
  idle : ∀ {past}, past <+: mgr.journal → (({} : Standing).after past).occupied = false →
    ({} : Standing).after past = {}
  /-- A call that is turned away changes nothing. -/
  declined : mgr.isReady = false ∨ mgr.isEvaluating = true →
    (∀ handler call, mgr.evaluate m handler call = (.returned (.ok none), mgr)) ∧
    ∀ handler script taskLimit, mgr.execute m handler script taskLimit = (.returned .notRun, mgr)
  /-- The calls of a handler are turned away. -/
  refused : ∀ h call, mgr.evaluate m (some (Handler.refused h)) call = mgr.evaluate m (some h) call

theorem evaluate_declined {mgr : Manager σ η} (h : mgr.isReady = false ∨ mgr.isEvaluating = true)
    (handler : Option (Handler η)) (call : Call) :
    mgr.evaluate m handler call = (.returned (.ok none), mgr) := by
  cases mgr with
  | waiting => rfl
  | ready l =>
    have hbusy : l.evaluating = true := h.resolve_left (by simp [isReady])
    rw [evaluate, Live.evaluate_of_evaluating m _ call hbusy]

/-- A manager evaluates one call at a time, whatever has been done with it. -/
theorem single_flight {mgr : Manager σ η} (hr : Reachable m mgr) : SingleFlight m mgr := by
  have ho := hr.orderly
  refine ⟨fun hj => ?_, ho.occupied, ho.after_past, fun h => ⟨evaluate_declined h, ?_⟩, ?_⟩
  · have hadmitted := ho.admitted
    rw [hj] at hadmitted
    exact (along_append.mp hadmitted).2.1
  · intro handler script taskLimit
    rw [execute, evaluate_declined h]
    rfl
  · intro h call
    cases mgr with
    | waiting => rfl
    | ready l =>
      have hl := l.evaluate_refused m h call
      simp only [evaluate, Option.map_some, hl]

/-- While a handler is being asked, the slot is taken. -/
theorem single_flight_asked : ∃ mgr : Manager Sandbox.Machine Unit,
    Reachable Sandbox.interpreter mgr ∧ mgr.isEvaluating = true ∧
      SingleFlight Sandbox.interpreter mgr := by
  have hstart : Reachable Sandbox.interpreter (.ready refusedAnswerBridge) :=
    ⟨{}, (), .single (.install refusedAnswerBridge.module)⟩
  have hasked : ∃ l', refusedAnswerBridge.Amid Sandbox.interpreter (some minimalHandler)
      ⟨"(+ 1 2)", "", 5⟩ l' := by
    apply Exists.intro
    apply Live.Amid.mk
    · rfl
    · rfl
    · exact .asked
  obtain ⟨l', hl'⟩ := hasked
  obtain ⟨session, hinside⟩ := hl'.inside hstart.orderly
  have hr := hstart.step (.amid hl')
  exact ⟨.ready l', hr, hinside.evaluating, single_flight hr⟩

end Manager

end LispBridge.Bridge
