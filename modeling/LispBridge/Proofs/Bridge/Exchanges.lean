import LispBridge.Proofs.Bridge.Rounds

/-!
# The exchanges of an evaluation with its handler

`Live.exchanges` follows an evaluation and lists its requests together with what the handler
replied to each, up to a reply that leaves the caller without a result. What becomes of a request is
`Exchange.Served`: its answer is posted, and the evaluation goes on. The main statements are
`Live.evaluate_of_acquired`, what a caller gets of an evaluation that is entered and what the
journal ends with, and `Live.exchanges_posted`, where the stores of the answers stand in the
journal.
-/

namespace LispBridge.Bridge

variable {σ η α : Type}

/-- A stop of an evaluation, and what the handler made of its request. -/
structure Exchange (σ : Type) extends Stop σ where
  reply : Reply
  /-- The module's state when the handler has replied. -/
  ready : σ

/-- The handler that gives the replies its host has in store, one after another. -/
def scripted : Handler (List Reply) := fun _ =>
  .host fun replies => .setHost replies.tail (.reply (replies.headD .aborted))

/-- Why a reply leaves the caller without a result, if it does. -/
def Reply.break? : Reply → Option Break
  | .crashed => some .crashed
  | .deserted => some .deserted
  | _ => none

theorem Reply.break?_of_settle_ok {capacity : Nat} {reply : Reply} {text : String}
    (h : reply.settle capacity = .ok text) : reply.break? = none := by
  cases reply <;> first | rfl | cases h

theorem Reply.break?_of_settle_error {capacity : Nat} {reply : Reply} {reason : Break}
    (h : reply.settle capacity = .error reason) : reply.break? = some reason := by
  cases reply <;> cases h <;> rfl

/-- An answer to the request is posted, and the evaluation goes on with its address. -/
structure Exchange.Served (m : Module σ) (capacity : Nat) (addr : Addr) (x : Exchange σ)
    (posts : List Event) : Prop where
  woken : x.woken = .ok addr
  posted : ∃ text, x.reply.Answers capacity text ∧ Posted m addr text x.ready posts x.found

namespace Live

/-! ## Exchanges of a computation -/

/-- The exchanges of a computation whose requests a handler answers at an address. -/
def exchangesIn (m : Module σ) (ask : Ask σ η) (addr : Addr) :
    Live σ η → Run σ α → List (Exchange σ)
  | _, .done .. => []
  | _, .aborted _ => []
  | l, .noted note next => exchangesIn m ask addr (l.log (.note note)) next
  | l, .suspended request s resume =>
    let asked := ask request ((l.withModule s).log (.ask request))
    match asked.1.settle l.settings.answerCapacity with
    | .ok text =>
      let l := (asked.2.withTraced (asked.2.toTraced.post m addr text)).log (.wake (.ok addr))
      ⟨⟨request, s, .ok addr, l.module⟩, asked.1, asked.2.module⟩ ::
        exchangesIn m ask addr l (resume (.ok addr) l.module)
    | .error _ =>
      [⟨⟨request, s, .error ⟨⟩, asked.2.module⟩, asked.1, asked.2.module⟩]

theorem drive_break_iff (m : Module σ) (ask : Ask σ η) (addr : Addr) (run : Run σ α)
    (l : Live σ η) (reason : Break) : (drive m ask addr l run).1.2 = some reason ↔
      ∃ x ∈ exchangesIn m ask addr l run, x.reply.break? = some reason := by
  induction run generalizing l with
  | done | aborted => simp [drive, exchangesIn]
  | noted note next ih => exact ih _
  | suspended request s resume ih =>
    rw [drive, exchangesIn]
    generalize ask request ((l.withModule s).log (.ask request)) = asked
    cases hset : asked.1.settle l.settings.answerCapacity with
    | ok text => simp [ih, Reply.break?_of_settle_ok hset]
    | error => simp [Reply.break?_of_settle_error hset]

/-- As long as no reply leaves the caller without a result, the stops of the evaluation are those
of the exchanges. -/
theorem drive_course (m : Module σ) (ask : Ask σ η) (addr : Addr) (run : Run σ α) (l : Live σ η)
    (h : (drive m ask addr l run).1.2 = none) :
    run.Course ((exchangesIn m ask addr l run).map (·.toStop)) (drive m ask addr l run).1.1
      (drive m ask addr l run).2.module := by
  induction run generalizing l with
  | done => exact .done
  | aborted => exact .aborted
  | noted note next ih => exact .noted (ih _ h)
  | suspended request s resume ih =>
    rw [drive] at h ⊢
    rw [exchangesIn]
    generalize ask request ((l.withModule s).log (.ask request)) = asked at h ⊢
    cases hset : asked.1.settle l.settings.answerCapacity with
    | ok text =>
      simp only [hset] at h ⊢
      exact .suspended (ih _ _ _ h)
    | error =>
      simp only [hset] at h
      cases h

theorem answer_posted (m : Module σ) (h : Handler η) (addr : Addr) (text : String)
    {l l₁ : Live σ η} {s : σ} {request : String} {reply : Reply} (hbusy : l.evaluating = true)
    (hrun : (h request).run m ((l.withModule s).log (.ask request)) = (reply, l₁)) :
    let l' := (l₁.withTraced (l₁.toTraced.post m addr text)).log (.wake (.ok addr))
    l'.evaluating = true ∧ l'.settings = l.settings ∧ ∃ posts seg,
      Posted m addr text l₁.module posts l'.module ∧
      l'.journal = l.journal ++ seg ∧ asked seg = [request] ∧ posts ⊆ seg := by
  intro l'
  let l₀ := (l.withModule s).log (.ask request)
  obtain ⟨he, hs, during, hj, hq⟩ := (h request).run_quiet m (l := l₀) hbusy
  rw [hrun] at he hs hj
  obtain ⟨posts, hpj, hposted⟩ := l₁.toTraced.post_posted m addr text
  refine ⟨he, hs, posts, [.ask request] ++ (during ++ posts) ++ [.wake (.ok addr)], hposted,
    ?_, ?_, ?_⟩
  · have hj₁ : l₁.journal = l.journal ++ [.ask request] ++ during := hj
    have hj' : l'.journal = l₁.journal ++ posts ++ [.wake (.ok addr)] :=
      congrArg (· ++ [Event.wake (.ok addr)]) hpj
    rw [hj', hj₁]
    simp only [List.append_assoc]
  · have hnone : asked (during ++ posts) = [] := asked_eq_nil fun e he =>
      (List.mem_append.mp he).imp (hq e) (hposted.upkeep e)
    rw [asked_append, asked_append, hnone]
    rfl
  · intro e he
    simp [he]

/-- The journal shows the exchanges, and the stores of each answer that is posted. -/
theorem drive_posted (m : Module σ) (h : Handler η) (addr : Addr) (run : Run σ α) {l : Live σ η}
    (hbusy : l.evaluating = true) : ∃ ev,
    (drive m (h.ask m) addr l run).2.journal = l.journal ++ ev ∧
    asked ev = (exchangesIn m (h.ask m) addr l run).map (·.request) ∧
    ∀ x ∈ exchangesIn m (h.ask m) addr l run,
      (x.reply.break?.isSome = true ∧ x.woken = .error ⟨⟩) ∨
      ∃ posts, x.Served m l.settings.answerCapacity addr posts ∧ posts ⊆ ev := by
  induction run generalizing l with
  | done | aborted => exact ⟨[], (List.append_nil _).symm, rfl, by simp [exchangesIn]⟩
  | noted note next ih =>
    obtain ⟨ev, hj, hasked, hall⟩ := ih (l := l.log (.note note)) hbusy
    refine ⟨.note note :: ev, hj.trans (List.append_assoc ..), hasked, fun x hx => ?_⟩
    refine (hall x hx).imp_right ?_
    rintro ⟨posts, hserved, hsub⟩
    exact ⟨posts, hserved, List.subset_cons_of_subset _ hsub⟩
  | suspended request s resume ih =>
    -- The handler runs once; both `drive` and `exchangesIn` go on with its reply.
    rcases hrun : (h request).run m ((l.withModule s).log (.ask request)) with ⟨reply, l₁⟩
    have hask : h.ask m request ((l.withModule s).log (.ask request)) = (reply, l₁) := hrun
    rw [drive, exchangesIn]
    simp only [hask]
    cases hset : reply.settle l.settings.answerCapacity with
    | error reason =>
      -- The evaluation runs on, but nobody is asked any more.
      obtain ⟨-, -, during, hj, hq⟩ := (h request).run_quiet m
        (l := (l.withModule s).log (.ask request)) hbusy
      rw [hrun] at hj
      obtain ⟨-, -, stops, ev, -, hsilent, hj'⟩ := (l₁.log (.wake (.error ⟨⟩))).drain_silent
        (resume (.error ⟨⟩) (l₁.log (.wake (.error ⟨⟩))).module)
      refine ⟨[.ask request] ++ during ++ ([.wake (.error ⟨⟩)] ++ ev), ?_, ?_, fun x hx => ?_⟩
      · have hj₁ : (l₁.log (.wake (.error ⟨⟩))).journal =
            l.journal ++ [.ask request] ++ during ++ [.wake (.error ⟨⟩)] :=
          congrArg (· ++ [Event.wake (.error ⟨⟩)]) hj
        rw [hj', hj₁]
        simp only [List.append_assoc]
      · have hnone : asked during = [] := asked_eq_nil fun e he => .inl (hq e he)
        rw [asked_append, asked_append, asked_append, hnone, hsilent.asked_wakes.1]
        rfl
      · rw [List.mem_singleton.mp hx]
        exact .inl ⟨by rw [Reply.break?_of_settle_error hset]; rfl, rfl⟩
    | ok text =>
      obtain ⟨he, hs, posts, seg, hposted, hj, hasked, hsub⟩ :=
        answer_posted m h addr text hbusy hrun
      simp only
      generalize (l₁.withTraced (l₁.toTraced.post m addr text)).log (.wake (.ok addr)) = l₂ at *
      obtain ⟨ev, hj', hasked', hall⟩ := ih (.ok addr) l₂.module he
      refine ⟨seg ++ ev, by rw [hj', hj, List.append_assoc], ?_, fun x hx => ?_⟩
      · rw [asked_append, hasked, hasked']
        rfl
      rcases List.mem_cons.mp hx with rfl | hx
      · exact .inr ⟨posts, ⟨rfl, text, Reply.answers_of_settle hset, hposted⟩,
          List.subset_append_of_subset_left _ hsub⟩
      · refine (hall x hx).imp_right ?_
        rintro ⟨posts', hserved, hsub'⟩
        exact ⟨posts', hs ▸ hserved, List.subset_append_of_subset_right _ hsub'⟩

/-- Nothing of a computation and its exchanges changes what is in force. -/
theorem drive_next_eq (m : Module σ) (h : Handler η) (addr : Addr) (run : Run σ α) {l : Live σ η}
    (hbusy : l.evaluating = true) {ev : List Event}
    (hj : (drive m (h.ask m) addr l run).2.journal = l.journal ++ ev) (st : Standing) :
    ∀ e ∈ ev, st.next e = st := by
  obtain ⟨-, -, _, ev', -, htalk, hj'⟩ := drive_talk m h addr run hbusy
  obtain rfl : ev' = ev := List.append_cancel_left (hj'.symm.trans hj)
  intro e he
  exact (htalk.converses e he).next_eq st

end Live

/-! ## Exchanges of an evaluation -/

/-- What an evaluation comes to by itself: its failure, or the document in the output block. -/
def Session.result (m : Module σ) (session : Session) (value : Option (Except ModuleError Int))
    (s : σ) : Except BridgeError (Option Json) :=
  match value with
  | none => .error .aborted
  | some (.error e) => .error (.module e)
  | some (.ok _) =>
    match m.read session.output.addr s with
    | .ok text => Live.decode text
    | .error e => .error (.module e)

theorem Session.result_eq (m : Module σ) (session : Session)
    (value : Option (Except ModuleError Int)) (t : Traced σ) :
    session.result m value t.module = (session.outcome m value t).1.bind Live.decode := by
  rcases value with _ | _ | _
  · rfl
  · rfl
  · rcases hr : m.read session.output.addr t.module with _ | _ <;>
      simp [result, outcome, Buffer.read, Traced.read, hr, Except.bind]

namespace Live

def entered (m : Module σ) (session : Session) (call : Call) (t : Traced σ) (l : Live σ η) :
    Live σ η :=
  (l.occupy.withTraced (t.setCallback m true)).log (.enter (session.args l.settings call))

/-- The exchanges of the evaluation that a call to an idle bridge comes to; there are none if a
block cannot be had. -/
def exchanges (m : Module σ) (h : Handler η) (call : Call) (l : Live σ η) : List (Exchange σ) :=
  match Session.acquire m l.settings call l.occupy.toTraced with
  | (.error _, _) => []
  | (.ok session, t) =>
    exchangesIn m (h.ask m) session.answer.addr (l.entered m session call t)
      (m.evaluate (session.args l.settings call) (l.entered m session call t).module)

variable {m : Module σ} {session : Session} {call : Call} {l : Live σ η} {t : Traced σ}

theorem exchanges_of_acquired (h : Handler η)
    (hacq : Session.acquire m l.settings call l.occupy.toTraced = (.ok session, t)) :
    l.exchanges m h call = exchangesIn m (h.ask m) session.answer.addr (l.entered m session call t)
      (m.evaluate (session.args l.settings call) (l.entered m session call t).module) := by
  simp only [exchanges, hacq]

theorem evaluate_of_acquired (ask : Ask σ η) (hidle : l.evaluating = false)
    (hacq : Session.acquire m l.settings call l.occupy.toTraced = (.ok session, t)) :
    let ran := drive m ask session.answer.addr (l.entered m session call t)
      (m.evaluate (session.args l.settings call) (l.entered m session call t).module)
    (l.evaluate m (some ask) call).1 = (match ran.1.2 with
      | some reason => .broken reason
      | none => .returned (session.result m ran.1.1 ran.2.module)) ∧
    ∃ rest, (∀ e ∈ rest, e.Upkeep) ∧ (l.evaluate m (some ask) call).2.journal =
      ran.2.journal ++ .leave ran.1.1 :: (rest ++ [.release]) := by
  intro ran
  have hrun : (l.occupy.withTraced t).run m (some ask) session call = conclude m session ran :=
    run_eq m (some ask) session call (l.occupy.withTraced t)
  obtain ⟨reading, hj, hread⟩ := conclude_journal m session ran
  rw [evaluate_eq_run m (some ask) hidle hacq, hrun]
  refine ⟨?_, _, session.closing_upkeep hread, ?_⟩
  · have hresult : session.result m ran.1.1 ran.2.module = _ :=
      session.result_eq m ran.1.1 (ran.2.log (.leave ran.1.1)).toTraced
    rw [hresult, conclude]
    cases ran.1.2 <;> rfl
  · calc (conclude m session ran).2.release.journal
      _ = (conclude m session ran).2.journal ++ [.release] := rfl
      _ = _ := by rw [hj]; simp only [List.append_assoc, List.cons_append]

/-- The events of a session show its exchanges, and the stores of the answers where its evaluation
runs. -/
theorem exchanges_posted (m : Module σ) (h : Handler η) (call : Call) {l : Live σ η}
    (hidle : l.evaluating = false) : ∃ body,
    (l.evaluate m (some (h.ask m)) call).2.journal =
      l.journal ++ .occupy :: (body ++ [.release]) ∧
    asked body = (l.exchanges m h call).map (·.request) ∧
    ∀ x ∈ l.exchanges m h call, (x.reply.break?.isSome = true ∧ x.woken = .error ⟨⟩) ∨
      ∃ (session : Session) (posts : List Event),
        session.answer.capacity = l.settings.answerCapacity ∧
        x.Served m l.settings.answerCapacity session.answer.addr posts ∧
        ∀ P : Standing → Event → Prop, Along P (.held []) body →
          ∀ e ∈ posts, P (session.running true) e := by
  rcases hacq : Session.acquire m l.settings call l.occupy.toTraced with ⟨e | session, t⟩
  · obtain ⟨-, -, body, hj, hproc⟩ := l.evaluate_proceedings m (some h) call hidle
    have hnil : l.exchanges m h call = [] := by simp only [exchanges, hacq]
    rw [hnil]
    obtain ⟨-, hup, -⟩ | ⟨_, _, _, hattended⟩ := hproc.attended
    · exact ⟨body, hj, asked_eq_nil fun e he => .inr (hup e he), by simp⟩
    · obtain ⟨_, _, _, hacq', -⟩ := hattended.course
      cases hacq.symm.trans hacq'
  obtain ⟨hcap, -, opening, hopening, hup, -, hafter⟩ := Session.acquire_since hacq
  have hbusy : (l.entered m session call t).evaluating = true := rfl
  let run := m.evaluate (session.args l.settings call) (l.entered m session call t).module
  obtain ⟨talk, hj, hasked, hall⟩ := drive_posted m h session.answer.addr run hbusy
  obtain ⟨-, rest, hrest, hj'⟩ := evaluate_of_acquired (h.ask m) hidle hacq
  generalize (drive m (h.ask m) session.answer.addr _ run).1.1 = value at hj'
  rw [exchanges_of_acquired h hacq]
  refine ⟨opening ++ .callback true :: .enter (session.args l.settings call) ::
    (talk ++ .leave value :: rest), ?_, (asked_frame hup hrest).trans hasked, fun x hx => ?_⟩
  · have hentered : (l.entered m session call t).journal = l.journal ++ [.occupy] ++ opening ++
        [.callback true] ++ [.enter (session.args l.settings call)] :=
      congrArg (· ++ [.callback true] ++ [.enter (session.args l.settings call)]) hopening
    rw [hj', hj, hentered]
    simp only [List.append_assoc, List.cons_append, List.nil_append]
  refine (hall x hx).imp_right ?_
  rintro ⟨posts, hserved, hsub⟩
  refine ⟨session, posts, hcap, hserved, fun P hP e he => ?_⟩
  have hrunning : Along P (session.running true) talk := by
    have hbody := (along_append.mp hP).2
    rw [hafter] at hbody
    exact (along_append.mp hbody.2.2).1
  have hnext := drive_next_eq m h session.answer.addr run hbusy hj (session.running true)
  exact (along_iff_of_next_eq_self hnext).mp hrunning e (hsub he)

end Live

end LispBridge.Bridge
