import LispBridge.Proofs.Bridge.Conversation

/-!
# What a session leaves in the journal

The events of an evaluation that takes the slot, from the first block to the last. `Since` follows
the blocks while they are had, `lawful_frees` gives them back in any order, and
`Live.evaluate_proceedings` puts the parts together: whatever the module and the handler do, the
events between taking the slot and giving it back are `Proceedings` of one session, which are
lawful and leave nothing in force.
-/

namespace LispBridge.Bridge

variable {σ η : Type}

/-- Why a caller got no result, if that is so. -/
def Ending.reason {α : Type} : Ending α → Option Break
  | .returned _ => none
  | .broken reason => some reason

@[simp] theorem Ending.reason_map {α β : Type} (f : α → β) (ending : Ending α) :
    (ending.map f).reason = ending.reason := by
  cases ending <;> rfl

/-! ## Having blocks -/

namespace Buffer

variable {m : Module σ} {b : Buffer} {e : ModuleError} {text : String} {t t' : Traced σ}

theorem ofText_eq_ok (h : ofText m text t = (.ok b, t')) :
    ∃ t₁, alloc m (text.utf8ByteSize + 1) t = (.ok b, t₁) ∧ b.write m text t₁ = (.ok (), t') := by
  unfold ofText at h
  rcases ha : alloc m (text.utf8ByteSize + 1) t with ⟨_ | b₁, t₁⟩ <;> rw [ha] at h
  · cases h
  simp only at h
  rcases hw : b₁.write m text t₁ with ⟨_ | _, t₂⟩ <;> rw [hw] at h <;> cases h
  exact ⟨t₁, rfl, hw⟩

/-- A buffer that cannot be filled is given back. -/
theorem ofText_eq_error (h : ofText m text t = (.error e, t')) :
    alloc m (text.utf8ByteSize + 1) t = (.error e, t') ∨
    ∃ b t₁ t₂, alloc m (text.utf8ByteSize + 1) t = (.ok b, t₁) ∧
      b.write m text t₁ = (.error e, t₂) ∧ t' = b.free m t₂ := by
  unfold ofText at h
  rcases ha : alloc m (text.utf8ByteSize + 1) t with ⟨_ | b₁, t₁⟩ <;> rw [ha] at h
  · exact .inl h
  simp only at h
  rcases hw : b₁.write m text t₁ with ⟨_ | _, t₂⟩ <;> rw [hw] at h <;> cases h
  exact .inr ⟨b₁, t₁, t₂, rfl, hw, rfl⟩

end Buffer

/-- The standing of a session that has taken the slot and has these blocks. -/
def Standing.held (live : List Buffer) : Standing := { occupied := true, live }

/-- Since the journal was `j`, a session has only looked after its blocks, and left `st`. -/
def Since (j : List Event) (t : Traced σ) (st : Standing) : Prop :=
  ∃ ev, t.journal = j ++ ev ∧ (∀ e ∈ ev, e.Upkeep) ∧ Lawful (.held []) ev ∧
    (Standing.held []).after ev = st

namespace Since

variable {j : List Event} {t t' : Traced σ} {st : Standing} {live : List Buffer}

theorem refl (t : Traced σ) : Since t.journal t (.held []) :=
  ⟨[], (List.append_nil _).symm, by simp, trivial, rfl⟩

theorem step (h : Since j t st) (t' : Traced σ) (e : Event) (hj : t'.journal = t.journal ++ [e])
    (hu : e.Upkeep) (ha : st.Allows e) : Since j t' (st.next e) := by
  obtain ⟨ev, hev, hup, hl, rfl⟩ := h
  refine ⟨ev ++ [e], by rw [hj, hev, List.append_assoc], ?_, ?_, by simp⟩
  · simpa [or_imp, forall_and] using ⟨hup, hu⟩
  · exact along_append.mpr ⟨hl, ha, trivial⟩

variable {m : Module σ}

theorem alloc {size : Nat} {r : Except ModuleError Buffer} (h : Since j t (.held live))
    (hr : Buffer.alloc m size t = (r, t')) :
    match r with
    | .ok b => b.capacity = size ∧ Since j t' (.held (b :: live))
    | .error _ => Since j t' (.held live) := by
  have hstep := h.step (t.alloc m size).2 (.alloc size (t.alloc m size).1) rfl trivial
    ⟨rfl, rfl, rfl⟩
  unfold Buffer.alloc at hr
  rcases ht : t.alloc m size with ⟨_ | addr, t₁⟩ <;> rw [ht] at hr hstep <;> cases hr
  · exact hstep
  · exact ⟨rfl, hstep⟩

theorem write {b : Buffer} {text : String} {r : Except ModuleError Unit}
    (h : Since j t (.held live)) (hb : b ∈ live) (hr : b.write m text t = (r, t')) :
    Since j t' (.held live) := by
  unfold Buffer.write at hr
  cases hrefusal : b.refusal? text with
  | some e => rw [hrefusal] at hr; cases hr; exact h
  | none =>
    have hstep := h.step (t.write m b.addr text).2
      (.write b.addr text (t.write m b.addr text).1) rfl trivial (List.mem_map_of_mem hb)
    have hw : t.write m b.addr text = (r, t') := by rwa [hrefusal] at hr
    rwa [hw] at hstep

theorem free {b : Buffer} (h : Since j t st) (hi : st.inside = false) (ho : st.outlet = false)
    (hlive : st.live = b :: live) : Since j (b.free m t) { st with closing := true, live } := by
  have hstep := h.step (b.free m t) (.free b.addr) rfl trivial
    ⟨hi, ho, by simp [Standing.addrs, hlive]⟩
  simpa [Standing.next, hlive] using hstep

/-- A buffer that cannot be filled is given back at once. -/
theorem ofText {text : String} {r : Except ModuleError Buffer} (h : Since j t (.held live))
    (hr : Buffer.ofText m text t = (r, t')) :
    match r with
    | .ok b => Since j t' (.held (b :: live))
    | .error _ => ∃ closing, Since j t' { Standing.held live with closing } := by
  cases r with
  | ok b =>
    obtain ⟨t₁, ha, hw⟩ := Buffer.ofText_eq_ok hr
    exact (h.alloc ha).2.write List.mem_cons_self hw
  | error e =>
    obtain ha | ⟨b, t₁, t₂, ha, hw, rfl⟩ := Buffer.ofText_eq_error hr
    · exact ⟨false, h.alloc ha⟩
    · exact ⟨true, ((h.alloc ha).2.write List.mem_cons_self hw).free rfl rfl rfl⟩

end Since

/-- How the blocks of a session are had: all of them, or the first ones, which are given back. -/
inductive Session.Acquired (m : Module σ) (s : Settings) (call : Call) (t : Traced σ) :
    Except ModuleError Session → Traced σ → Prop
  | noAnswer {e t₁} : Buffer.alloc m s.answerCapacity t = (.error e, t₁) →
      Acquired m s call t (.error e) t₁
  | noOutput {answer t₁ e t₂} : Buffer.alloc m s.answerCapacity t = (.ok answer, t₁) →
      Buffer.alloc m s.outputCapacity t₁ = (.error e, t₂) →
      Acquired m s call t (.error e) (answer.free m t₂)
  | noInput {answer t₁ output t₂ e t₃} : Buffer.alloc m s.answerCapacity t = (.ok answer, t₁) →
      Buffer.alloc m s.outputCapacity t₁ = (.ok output, t₂) →
      Buffer.ofText m call.script t₂ = (.error e, t₃) →
      Acquired m s call t (.error e) (answer.free m (output.free m t₃))
  | noLibrary {answer t₁ output t₂ input t₃ e t₄} :
      Buffer.alloc m s.answerCapacity t = (.ok answer, t₁) →
      Buffer.alloc m s.outputCapacity t₁ = (.ok output, t₂) →
      Buffer.ofText m call.script t₂ = (.ok input, t₃) →
      Buffer.ofText m call.library t₃ = (.error e, t₄) →
      Acquired m s call t (.error e) (answer.free m (output.free m (input.free m t₄)))
  | all {answer t₁ output t₂ input t₃ library t₄} :
      Buffer.alloc m s.answerCapacity t = (.ok answer, t₁) →
      Buffer.alloc m s.outputCapacity t₁ = (.ok output, t₂) →
      Buffer.ofText m call.script t₂ = (.ok input, t₃) →
      Buffer.ofText m call.library t₃ = (.ok library, t₄) →
      Acquired m s call t (.ok ⟨answer, output, input, library⟩) t₄

theorem Session.acquired_of_acquire {m : Module σ} {s : Settings} {call : Call} {t t' : Traced σ}
    {r : Except ModuleError Session} (hr : acquire m s call t = (r, t')) :
    Acquired m s call t r t' := by
  unfold acquire at hr
  rcases ha : Buffer.alloc m s.answerCapacity t with ⟨_ | answer, t₁⟩ <;> rw [ha] at hr
  · cases hr
    exact .noAnswer ha
  simp only at hr
  rcases ho : Buffer.alloc m s.outputCapacity t₁ with ⟨_ | output, t₂⟩ <;> rw [ho] at hr
  · cases hr
    exact .noOutput ha ho
  simp only at hr
  rcases hi : Buffer.ofText m call.script t₂ with ⟨_ | input, t₃⟩ <;> rw [hi] at hr
  · cases hr
    exact .noInput ha ho hi
  simp only at hr
  rcases hl : Buffer.ofText m call.library t₃ with ⟨_ | library, t₄⟩ <;> rw [hl] at hr <;> cases hr
  · exact .noLibrary ha ho hi hl
  · exact .all ha ho hi hl

/-- Either a session has its four blocks, or it has none left. -/
theorem Session.acquire_since {m : Module σ} {s : Settings} {call : Call} {t t' : Traced σ}
    {r : Except ModuleError Session} (hr : acquire m s call t = (r, t')) :
    match r with
    | .ok session => session.answer.capacity = s.answerCapacity ∧
        session.output.capacity = s.outputCapacity ∧ Since t.journal t'
          (.held [session.library, session.input, session.output, session.answer])
    | .error _ => ∃ closing, Since t.journal t' { Standing.held [] with closing } := by
  cases acquired_of_acquire hr with
  | noAnswer ha => exact ⟨false, (Since.refl t).alloc ha⟩
  | noOutput ha ho =>
    have h₂ := ((Since.refl t).alloc ha).2.alloc ho
    exact ⟨true, h₂.free rfl rfl rfl⟩
  | noInput ha ho hi =>
    obtain ⟨closing, h₃⟩ := (((Since.refl t).alloc ha).2.alloc ho).2.ofText hi
    exact ⟨true, (h₃.free rfl rfl rfl).free rfl rfl rfl⟩
  | noLibrary ha ho hi hl =>
    have h₃ := (((Since.refl t).alloc ha).2.alloc ho).2.ofText hi
    obtain ⟨closing, h₄⟩ := h₃.ofText hl
    exact ⟨true, ((h₄.free rfl rfl rfl).free rfl rfl rfl).free rfl rfl rfl⟩
  | all ha ho hi hl =>
    obtain ⟨hcap, h₁⟩ := (Since.refl t).alloc ha
    obtain ⟨hcap', h₂⟩ := h₁.alloc ho
    have h₃ := h₂.ofText hi
    exact ⟨hcap, hcap', h₃.ofText hl⟩

/-! ## Giving blocks back -/

/-- Blocks can be given back in any order once the outlet is clear. -/
theorem lawful_frees {st : Standing} {as : List Addr} (hi : st.inside = false)
    (ho : st.outlet = false) (ha : st.addrs.Perm as) :
    Lawful st (as.map .free) ∧
      ∃ closing, st.after (as.map .free) =
        { Standing.held [] with occupied := st.occupied, closing } := by
  induction as generalizing st with
  | nil =>
    have hlive : st.live = [] := List.map_eq_nil_iff.mp ha.eq_nil
    refine ⟨trivial, st.closing, ?_⟩
    cases st
    simp_all [Standing.held]
  | cons a as ih =>
    have hmem : a ∈ st.addrs := ha.symm.subset List.mem_cons_self
    have herase : (st.next (.free a)).addrs.Perm as := by
      rw [Standing.addrs_free]
      exact (List.cons_perm_iff_perm_erase.mp ha.symm).2.symm
    obtain ⟨hl, closing, hafter⟩ := @ih (st.next (.free a)) hi ho herase
    exact ⟨⟨⟨hi, ho, hmem⟩, hl⟩, closing, hafter⟩

namespace Session

/-- The blocks of a session, in the order in which they are given back. -/
def addrs (s : Session) : List Addr :=
  [s.input.addr, s.library.addr, s.output.addr, s.answer.addr]

/-- What is in force while the evaluation of a session runs, with or without a handler. -/
def running (s : Session) (handled : Bool) : Standing :=
  { Standing.held [s.library, s.input, s.output, s.answer] with outlet := handled, inside := true }

theorem answer_mem_running (s : Session) (handled : Bool) :
    s.answer ∈ (s.running handled).live := by
  simp [running, Standing.held]

theorem addrs_perm (s : Session) :
    (Standing.held [s.library, s.input, s.output, s.answer]).addrs.Perm s.addrs := .swap ..

theorem close_journal (m : Module σ) (s : Session) (t : Traced σ) :
    (s.close m t).journal = t.journal ++ .callback false :: s.addrs.map .free := by
  simp [close, Traced.setCallback, Buffer.free, Traced.free, addrs]

theorem outcome_journal (m : Module σ) (s : Session) (value : Option (Except ModuleError Int))
    (t : Traced σ) : ∃ reading, (s.outcome m value t).2.journal = t.journal ++ reading ∧
      (reading = [] ∨ ∃ text, reading = [.read s.output.addr text]) := by
  rcases value with _ | _ | _
  · exact ⟨[], (List.append_nil _).symm, .inl rfl⟩
  · exact ⟨[], (List.append_nil _).symm, .inl rfl⟩
  · refine ⟨[.read s.output.addr (m.read s.output.addr t.module)], ?_, .inr ⟨_, rfl⟩⟩
    rcases hr : m.read s.output.addr t.module with _ | _ <;>
      simp [outcome, Buffer.read, Traced.read, Traced.record, hr]

end Session

/-! ## Whole sessions -/

/-- What passes while an evaluation runs, with or without a handler. -/
def Conversation (m : Module σ) (handler : Option (Handler η)) (capacity : Nat) (addr : Addr)
    (stops : List (Stop σ)) (ev : List Event) (broken : Option Break) : Prop :=
  match handler with
  | some h => Talk m h capacity addr stops ev broken
  | none => Silent stops ev ∧ broken = none

theorem Conversation.converses {m : Module σ} {handler : Option (Handler η)} {capacity : Nat}
    {addr : Addr} {stops : List (Stop σ)} {ev : List Event} {broken : Option Break}
    (h : Conversation m handler capacity addr stops ev broken) : ∀ e ∈ ev, e.Converses addr := by
  cases handler with
  | some => exact Talk.converses h
  | none => exact Silent.converses h.1

/-- The events of a session between taking the slot and giving it back, and why its caller got no
result, if that is so. -/
inductive Proceedings (m : Module σ) (handler : Option (Handler η)) (call : Call)
    (l : Live σ η) : List Event → Option Break → Prop
  /-- A block cannot be had or filled. -/
  | refused {e t opening closing} :
      Session.acquire m l.settings call l.occupy.toTraced = (.error e, t) →
      (∀ e ∈ opening, e.Upkeep) → Lawful (.held []) opening →
      (Standing.held []).after opening = { Standing.held [] with closing } →
      Proceedings m handler call l opening none
  /-- The evaluation is run. -/
  | held {session : Session} {t opening stops talk value reading s' broken} :
      Session.acquire m l.settings call l.occupy.toTraced = (.ok session, t) →
      (∀ e ∈ opening, e.Upkeep) → Lawful (.held []) opening →
      (Standing.held []).after opening =
        .held [session.library, session.input, session.output, session.answer] →
      session.answer.capacity = l.settings.answerCapacity →
      (m.evaluate (session.args l.settings call)
        (m.setCallback handler.isSome t.module)).Course stops value s' →
      Conversation m handler l.settings.answerCapacity session.answer.addr stops talk broken →
      (reading = [] ∨ ∃ text, reading = [.read session.output.addr text]) →
      Proceedings m handler call l
        (opening ++ .callback handler.isSome :: .enter (session.args l.settings call) ::
          (talk ++ .leave value :: (reading ++ .callback false :: session.addrs.map .free))) broken

/-- The proceedings of a session are lawful, and leave nothing in force but the slot. -/
theorem Proceedings.lawful {m : Module σ} {handler : Option (Handler η)} {call : Call}
    {l : Live σ η} {body : List Event} {broken : Option Break}
    (h : Proceedings m handler call l body broken) :
    Lawful (.held []) body ∧
      ∃ closing, (Standing.held []).after body = { Standing.held [] with closing } := by
  cases h with
  | refused _ _ hl hafter => exact ⟨hl, _, hafter⟩
  | @held session t opening stops talk value reading s' _ _ _ hl hafter _ _ htalk hread =>
    let live := [session.library, session.input, session.output, session.answer]
    let st : Standing := { Standing.held live with outlet := handler.isSome }
    let running := session.running handler.isSome
    have hconv := htalk.converses
    have hnext : ∀ e ∈ talk, running.next e = running := fun e he => (hconv e he).next_eq running
    have htalk : Lawful running talk := (along_iff_of_next_eq_self hnext).mpr fun e he =>
      (hconv e he).allows rfl (List.mem_map_of_mem (session.answer_mem_running _))
    have hread : Lawful st reading ∧ st.after reading = st := by
      rcases hread with rfl | ⟨text, rfl⟩
      · exact ⟨trivial, rfl⟩
      · exact ⟨⟨⟨rfl, by simp [st, live, Standing.addrs, Standing.held]⟩, trivial⟩, rfl⟩
    obtain ⟨hfrees, closing, hclosed⟩ := lawful_frees rfl rfl session.addrs_perm
    refine ⟨along_append.mpr ⟨hl, ?_⟩, closing, ?_⟩
    · rw [hafter]
      refine ⟨⟨rfl, rfl⟩, ⟨rfl, rfl⟩, along_append.mpr ⟨htalk, ?_⟩⟩
      change Lawful (running.after talk) _
      rw [after_eq_self hnext]
      refine ⟨rfl, along_append.mpr ⟨hread.1, ?_⟩⟩
      change Lawful (st.after reading) _
      rw [hread.2]
      exact ⟨⟨rfl, rfl⟩, hfrees⟩
    · rw [Standing.after_append, hafter]
      change (running.after (talk ++ _)) = _
      rw [Standing.after_append, after_eq_self hnext]
      change st.after (reading ++ _) = _
      rw [Standing.after_append, hread.2]
      exact hclosed

namespace Live

/-- Runs an evaluation, with or without a handler. -/
def converse {α : Type} (m : Module σ) (ask : Option (Ask σ η)) (addr : Addr) (l : Live σ η)
    (run : Run σ α) : (Option α × Option Break) × Live σ η :=
  match ask with
  | some ask => drive m ask addr l run
  | none => (((l.drain run).1, none), (l.drain run).2)

theorem converse_spec {α : Type} (m : Module σ) (handler : Option (Handler η)) (addr : Addr)
    (run : Run σ α) {l : Live σ η} (hbusy : l.evaluating = true) :
    let r := l.converse m (handler.map (Handler.ask m)) addr run
    r.2.evaluating = true ∧ r.2.settings = l.settings ∧
    ∃ stops ev, run.Course stops r.1.1 r.2.module ∧
      Conversation m handler l.settings.answerCapacity addr stops ev r.1.2 ∧
      r.2.journal = l.journal ++ ev := by
  cases handler with
  | some h => exact drive_talk m h addr run hbusy
  | none =>
    obtain ⟨he, hs, stops, ev, hc, ht, hj⟩ := l.drain_silent run
    exact ⟨he.trans hbusy, hs, stops, ev, hc, ⟨ht, rfl⟩, hj⟩

/-- Reads the output of an evaluation and closes its session. -/
def conclude (m : Module σ) (session : Session)
    (ran : (Option (Except ModuleError Int) × Option Break) × Live σ η) :
    Ending (Except BridgeError String) × Live σ η :=
  let result := session.outcome m ran.1.1 (ran.2.log (.leave ran.1.1)).toTraced
  (match ran.1.2 with
    | some reason => .broken reason
    | none => .returned result.1,
    (ran.2.log (.leave ran.1.1)).withTraced (session.close m result.2))

theorem conclude_reason (m : Module σ) (session : Session)
    (ran : (Option (Except ModuleError Int) × Option Break) × Live σ η) :
    (conclude m session ran).1.reason = ran.1.2 := by
  rcases ran with ⟨⟨_, _ | _⟩, _⟩ <;> rfl

theorem conclude_journal (m : Module σ) (session : Session)
    (ran : (Option (Except ModuleError Int) × Option Break) × Live σ η) : ∃ reading,
    (conclude m session ran).2.journal = ran.2.journal ++
      .leave ran.1.1 :: (reading ++ .callback false :: session.addrs.map .free) ∧
    (reading = [] ∨ ∃ text, reading = [.read session.output.addr text]) := by
  obtain ⟨reading, hreading, hread⟩ :=
    session.outcome_journal m ran.1.1 (ran.2.log (.leave ran.1.1)).toTraced
  have hlog : (ran.2.log (.leave ran.1.1)).journal = ran.2.journal ++ [.leave ran.1.1] := rfl
  refine ⟨reading, ?_, hread⟩
  rw [conclude, withTraced, session.close_journal, hreading, hlog]
  simp only [List.append_assoc, List.cons_append, List.nil_append]

theorem run_eq (m : Module σ) (ask : Option (Ask σ η)) (session : Session) (call : Call)
    (l : Live σ η) :
    let args := session.args l.settings call
    let l' := l.withTraced ((l.toTraced.setCallback m ask.isSome).record (.enter args))
    l.run m ask session call =
      conclude m session (l'.converse m ask session.answer.addr (m.evaluate args l'.module)) := by
  cases ask with
  | none => rfl
  | some ask =>
    simp only [run, converse, conclude]
    split <;> simp_all

/-- A session sets the outlet, enters its evaluation and is in conversation until that ends. -/
theorem run_converse (m : Module σ) (handler : Option (Handler η)) (session : Session)
    (call : Call) {l : Live σ η} (hbusy : l.evaluating = true) :
    ∃ (ran : (Option (Except ModuleError Int) × Option Break) × Live σ η) (stops : List (Stop σ))
      (talk : List Event),
      l.run m (handler.map (Handler.ask m)) session call = conclude m session ran ∧
      ran.2.settings = l.settings ∧
      ran.2.journal = l.journal ++
        .callback handler.isSome :: .enter (session.args l.settings call) :: talk ∧
      (m.evaluate (session.args l.settings call)
        (m.setCallback handler.isSome l.module)).Course stops ran.1.1 ran.2.module ∧
      Conversation m handler l.settings.answerCapacity session.answer.addr stops talk ran.1.2 := by
  let args := session.args l.settings call
  let l' := l.withTraced ((l.toTraced.setCallback m handler.isSome).record (.enter args))
  obtain ⟨-, hs, stops, talk, hcourse, htalk, hj⟩ := l'.converse_spec m handler session.answer.addr
    (m.evaluate args l'.module) hbusy
  have hrun : l.run m (handler.map (Handler.ask m)) session call =
      conclude m session (l'.converse m (handler.map (Handler.ask m)) session.answer.addr
        (m.evaluate args l'.module)) := by
    simpa only [Option.isSome_map] using run_eq m (handler.map (Handler.ask m)) session call l
  refine ⟨_, stops, talk, hrun, hs, ?_, hcourse, htalk⟩
  have hl' : l'.journal = l.journal ++ [.callback handler.isSome] ++ [.enter args] := rfl
  rw [hj, hl']
  simp only [List.append_assoc, List.cons_append, List.nil_append, args]

theorem run_spec (m : Module σ) (handler : Option (Handler η)) (session : Session) (call : Call)
    {l : Live σ η} (hbusy : l.evaluating = true) :
    let r := l.run m (handler.map (Handler.ask m)) session call
    r.2.settings = l.settings ∧
    ∃ (stops : List (Stop σ)) (talk reading : List Event)
      (value : Option (Except ModuleError Int)) (s' : σ),
      r.2.journal = l.journal ++
        .callback handler.isSome :: .enter (session.args l.settings call) ::
          (talk ++ .leave value :: (reading ++ .callback false :: session.addrs.map .free)) ∧
      (m.evaluate (session.args l.settings call)
        (m.setCallback handler.isSome l.module)).Course stops value s' ∧
      Conversation m handler l.settings.answerCapacity session.answer.addr stops talk r.1.reason ∧
      (reading = [] ∨ ∃ text, reading = [.read session.output.addr text]) := by
  intro r
  obtain ⟨ran, stops, talk, hr, hs, hj, hcourse, htalk⟩ := run_converse m handler session call hbusy
  obtain ⟨reading, hconclude, hread⟩ := conclude_journal m session ran
  rw [← conclude_reason m session ran] at htalk
  rw [show r = conclude m session ran from hr]
  refine ⟨hs, stops, talk, reading, ran.1.1, _, ?_, hcourse, htalk, hread⟩
  rw [hconclude, hj]
  simp only [List.append_assoc, List.cons_append]

/-- Without its blocks, an evaluation is over. -/
theorem evaluate_of_refused {m : Module σ} (ask : Option (Ask σ η)) {call : Call} {l : Live σ η}
    {e : ModuleError} {t : Traced σ} (hidle : l.evaluating = false)
    (hacq : Session.acquire m l.settings call l.occupy.toTraced = (.error e, t)) :
    l.evaluate m ask call =
      (.returned (.error (.module e)), (l.occupy.withTraced t).release) := by
  have hacq' : Session.acquire m l.occupy.settings call l.occupy.toTraced = (.error e, t) := hacq
  simp only [evaluate, hidle, hacq', Bool.false_eq_true, if_false]

theorem evaluate_eq_run (m : Module σ) (ask : Option (Ask σ η)) {session : Session} {call : Call}
    {l : Live σ η} {t : Traced σ} (hidle : l.evaluating = false)
    (hacq : Session.acquire m l.settings call l.occupy.toTraced = (.ok session, t)) :
    let ran := (l.occupy.withTraced t).run m ask session call
    l.evaluate m ask call = (ran.1.map (·.bind decode), ran.2.release) := by
  have hacq' : Session.acquire m l.occupy.settings call l.occupy.toTraced = (.ok session, t) := hacq
  rw [evaluate, if_neg (by simp [hidle])]
  simp only [hacq']
  rcases (l.occupy.withTraced t).run m ask session call with ⟨(_ | _) | _, _⟩ <;> rfl

/-- Whatever the module and the handler do, an evaluation that takes the slot leaves the
proceedings of one session in the journal, and gives the slot back at their end. -/
theorem evaluate_proceedings (m : Module σ) (handler : Option (Handler η)) (call : Call)
    {l : Live σ η} (hidle : l.evaluating = false) :
    let r := l.evaluate m (handler.map (Handler.ask m)) call
    r.2.evaluating = false ∧ r.2.settings = l.settings ∧ ∃ body,
      r.2.journal = l.journal ++ .occupy :: (body ++ [.release]) ∧
      Proceedings m handler call l body r.1.reason := by
  intro r
  rcases hacq : Session.acquire m l.occupy.settings call l.occupy.toTraced with ⟨e | session, t⟩ <;>
    have hsince := Session.acquire_since hacq
  · obtain ⟨closing, opening, hj, hup, hl, hafter⟩ := hsince
    have hr : r = _ := evaluate_of_refused (handler.map (Handler.ask m)) hidle hacq
    rw [hr]
    refine ⟨rfl, rfl, opening, ?_, .refused hacq hup hl hafter⟩
    calc (release (l.occupy.withTraced t)).journal
      _ = t.journal ++ [.release] := rfl
      _ = l.journal ++ [.occupy] ++ opening ++ [.release] := by rw [hj]; rfl
      _ = _ := by simp only [List.append_assoc, List.cons_append, List.nil_append]
  · obtain ⟨hcap, -, opening, hj, hup, hl, hafter⟩ := hsince
    obtain ⟨hs, stops, talk, reading, value, s', hjr, hcourse, htalk, hread⟩ :=
      run_spec m handler session call (l := l.occupy.withTraced t) rfl
    have hr : r = _ := evaluate_eq_run m (handler.map (Handler.ask m)) hidle hacq
    rw [hr]
    refine ⟨rfl, hs, _, ?_, .held hacq hup hl hafter hcap hcourse
      ((Ending.reason_map ..).symm ▸ htalk) hread⟩
    calc (release _).journal
      _ = _ ++ [.release] := rfl
      _ = t.journal ++ _ ++ [.release] := by rw [hjr]; rfl
      _ = l.journal ++ [.occupy] ++ opening ++ _ ++ [.release] := by rw [hj]; rfl
      _ = _ := by simp only [List.append_assoc, List.cons_append, List.nil_append]; rfl

end Live

end LispBridge.Bridge
