import LispBridge.Proofs.Bridge.SessionRelease

/-!
# Requests and answers of a session

What a session with a handler owes to its module: each request is put to the handler once, its
answer is stored at the answer block and nowhere else, and the evaluation goes on once
(`Manager.evaluate_attended`). An answer block of a capacity that a settings file can ask for holds
whatever is stored in it, so a module that takes what fits never refuses the first store
(`Talk.stored`).
-/

namespace LispBridge.Bridge

variable {σ η : Type}

/-! ## Stores that succeed -/

section
variable {m : Module σ} {h : Handler η} {capacity : Nat} {addr : Addr} {stop : Stop σ}
  {stops : List (Stop σ)} {seg ev : List Event} {broken : Option Break} {st : Standing}

/-- The text of a reply is ASCII, and fits an answer buffer that is not too small. -/
theorem Reply.Answers.fits {reply : Reply} {text : String} (ha : reply.Answers capacity text)
    (hcap : Settings.minAnswerCapacity ≤ capacity) :
    isAscii text = true ∧ text.utf8ByteSize + 1 ≤ capacity := by
  have hfalse : isAscii falseText = true ∧ falseText.utf8ByteSize + 1 ≤ capacity :=
    ⟨by decide, Nat.le_trans (by decide) hcap⟩
  cases ha with
  | usable hascii hfit => exact ⟨hascii, hfit⟩
  | unusable | failed | aborted => exact hfalse

theorem Posted.eq_stored {text : String} {s s' : σ} {posts : List Event}
    (hp : Posted m addr text s posts s') (ha : ∀ e ∈ posts, st.Accepts e)
    (hascii : isAscii text = true)
    (hfit : ∃ b ∈ st.live, b.addr = addr ∧ text.utf8ByteSize + 1 ≤ b.capacity) :
    posts = [.write addr text (.ok ())] := by
  cases hp with
  | stored => rfl
  | refused =>
    have hok := ha _ List.mem_cons_self hascii hfit
    cases hok

theorem Silent.not_mem_write {a : Addr} {text : String} {r : Except ModuleError Unit}
    (hs : Silent stops ev) : .write a text r ∉ ev := by
  induction hs with
  | nil => simp
  | remark _ ih | wake _ _ _ ih => simpa using ih

/-- A module that takes what fits takes each answer at the first store. -/
theorem Talk.stored (ht : Talk m h capacity addr stops ev broken)
    (hcap : Settings.minAnswerCapacity ≤ capacity) (ha : ∀ e ∈ ev, st.Accepts e)
    (hb : ⟨addr, capacity⟩ ∈ st.live) :
    ∀ a text r, .write a text r ∈ ev → r = .ok () := by
  intro a text r hmem
  induction ht with
  | nil => cases hmem
  | remark _ ih =>
    exact ih (fun e he => ha e (List.mem_cons_of_mem _ he)) (by simpa using hmem)
  | round hr _ ih =>
    rcases List.mem_append.mp hmem with hmem | hmem
    · obtain ⟨hasked, hanswers, hposted, -⟩ := hr
      obtain ⟨hascii, hfit⟩ := hanswers.fits hcap
      have hposts := hposted.eq_stored (fun e he => ha e (by simp [he])) hascii ⟨_, hb, rfl, hfit⟩
      subst hposts
      simp only [List.mem_cons, List.mem_append, reduceCtorEq, false_or, or_false,
        List.not_mem_nil, Event.write.injEq] at hmem
      rcases hmem with hmem | ⟨-, -, rfl⟩
      · exact (hasked.quiet _ hmem).elim
      · rfl
    · exact ih (fun e he => ha e (List.mem_append_right _ he)) hmem
  | broken hasked _ _ _ hs =>
    simp only [List.mem_cons, List.mem_append, reduceCtorEq, false_or] at hmem
    rcases hmem with hmem | hmem
    · exact (hasked.quiet _ hmem).elim
    · exact absurd hmem hs.not_mem_write

end

/-! ## Sessions with a handler -/

/-- In `body`, the events of a session on `l`, its evaluation was entered and made `stops`; the
events until it returned are `talk`. -/
structure Attended (m : Module σ) (h : Handler η) (call : Call) (l : Live σ η)
    (body : List Event) (session : Session) (stops : List (Stop σ)) (talk : List Event)
    (broken : Option Break) : Prop where
  /-- The stops are those of the evaluation that the module enters once the outlet is set. -/
  course : ∃ t value s', Session.acquire m l.settings call l.occupy.toTraced = (.ok session, t) ∧
    (m.evaluate (session.args l.settings call) (m.setCallback true t.module)).Course stops value s'
  /-- Outside `talk` the session only looks after its blocks. -/
  frame : ∃ opening value rest, (∀ e ∈ opening, e.Upkeep) ∧ (∀ e ∈ rest, e.Upkeep) ∧
    body = opening ++ .callback true :: .enter (session.args l.settings call) ::
      (talk ++ .leave value :: rest)
  capacity : session.answer.capacity = l.settings.answerCapacity
  rounds : Talk m h l.settings.answerCapacity session.answer.addr stops talk broken
  /-- The handler is asked nothing but the requests of the stops, each once and in order. -/
  asked_isPrefix : asked body <+: stops.map (·.request)
  wakes_eq : wakes body = stops.map (·.woken)
  /-- Unless the handler leaves the caller without a result, every stop is answered. -/
  asked_eq : broken = none → asked body = stops.map (·.request) ∧
    ∀ stop ∈ stops, stop.woken = .ok session.answer.addr
  /-- With settings from a file, a module that takes what fits takes each answer at once. -/
  stored : (∃ text, l.settings = (Settings.ofText text).1) → Accepting (.held []) body →
    ∀ addr text r, .write addr text r ∈ talk → r = .ok ()

section
variable {opening talk rest : List Event} {args : EvalArgs} {handled : Bool}
  {value : Option (Except ModuleError Int)}

theorem asked_frame (ho : ∀ e ∈ opening, e.Upkeep) (hr : ∀ e ∈ rest, e.Upkeep) :
    asked (opening ++ .callback handled :: .enter args :: (talk ++ .leave value :: rest)) =
      asked talk := by
  rw [asked_append, asked_eq_nil fun e he => .inr (ho e he), List.nil_append]
  change asked (talk ++ ([.leave value] ++ rest)) = _
  rw [asked_append, asked_append, asked_eq_nil fun e he => .inr (hr e he)]
  exact List.append_nil _

theorem wakes_frame (ho : ∀ e ∈ opening, e.Upkeep) (hr : ∀ e ∈ rest, e.Upkeep) :
    wakes (opening ++ .callback handled :: .enter args :: (talk ++ .leave value :: rest)) =
      wakes talk := by
  rw [wakes_append, wakes_eq_nil fun e he => .inr (ho e he), List.nil_append]
  change wakes (talk ++ ([.leave value] ++ rest)) = _
  rw [wakes_append, wakes_append, wakes_eq_nil fun e he => .inr (hr e he)]
  exact List.append_nil _

end

theorem Session.closing_upkeep (session : Session) {reading : List Event}
    (hread : reading = [] ∨ ∃ text, reading = [.read session.output.addr text]) :
    ∀ e ∈ reading ++ .callback false :: session.addrs.map .free, e.Upkeep := by
  intro e he
  rcases List.mem_append.mp he with he | he
  · rcases hread with rfl | ⟨text, rfl⟩
    · cases he
    · exact List.mem_singleton.mp he ▸ trivial
  · rcases List.mem_cons.mp he with rfl | he
    · trivial
    · obtain ⟨a, -, rfl⟩ := List.mem_map.mp he
      trivial

theorem Proceedings.attended {m : Module σ} {h : Handler η} {call : Call} {l : Live σ η}
    {body : List Event} {broken : Option Break}
    (hp : Proceedings m (some h) call l body broken) :
    ((∃ e t, Session.acquire m l.settings call l.occupy.toTraced = (.error e, t)) ∧
      (∀ e ∈ body, e.Upkeep) ∧ broken = none) ∨
    ∃ session stops talk, Attended m h call l body session stops talk broken := by
  cases hp with
  | refused hacq hup => exact .inl ⟨⟨_, _, hacq⟩, hup, rfl⟩
  | @held session t opening stops talk value reading s' _ hacq hup _ hafter hcap hcourse htalk
      hread =>
    refine .inr ⟨session, stops, talk, ?_⟩
    have htalk : Talk m h l.settings.answerCapacity session.answer.addr stops talk broken := htalk
    obtain ⟨hpre, hwakes, hall⟩ := htalk.asked_wakes
    have hrest := session.closing_upkeep hread
    refine ⟨⟨t, value, s', hacq, hcourse⟩, ⟨opening, value, _, hup, hrest, rfl⟩, hcap, htalk,
      ?_, ?_, fun hb => ?_, ?_⟩
    · rwa [asked_frame hup hrest]
    · rwa [wakes_frame hup hrest]
    · rw [asked_frame hup hrest]
      exact hall hb
    rintro ⟨text, hsettings⟩ haccept
    have hleast : Settings.minAnswerCapacity ≤ l.settings.answerCapacity := by
      rw [hsettings]
      exact Settings.least_le_get_ofText text .answerCapacity
    have hnext : ∀ e ∈ talk, (session.running true).next e = session.running true := fun e he =>
      (htalk.converses e he).next_eq _
    have hrunning : Along Standing.Accepts (session.running true) talk := by
      have hbody := (along_append.mp haccept).2
      rw [hafter] at hbody
      exact (along_append.mp hbody.2.2).1
    have hmem : ⟨session.answer.addr, l.settings.answerCapacity⟩ ∈
        (session.running true).live := by
      rw [← hcap]
      exact session.answer_mem_running true
    exact htalk.stored hleast ((along_iff_of_next_eq_self hnext).mp hrunning) hmem

/-- An evaluation with a handler that takes the slot either cannot have its blocks, or attends to
the requests of the module's evaluation one after another. -/
theorem Manager.evaluate_attended (m : Module σ) (h : Handler η) (call : Call) (l : Live σ η)
    (hidle : l.evaluating = false) :
    ∃ ending l' body, (Manager.ready l).evaluate m (some h) call = (ending, .ready l') ∧
      l'.journal = l.journal ++ .occupy :: (body ++ [.release]) ∧
      (((∃ e t, Session.acquire m l.settings call l.occupy.toTraced = (.error e, t)) ∧
        (∀ e ∈ body, e.Upkeep) ∧ ending.reason = none) ∨
      ∃ session stops talk, Attended m h call l body session stops talk ending.reason) := by
  obtain ⟨-, -, body, hj, hproc⟩ := l.evaluate_proceedings m (some h) call hidle
  exact ⟨_, _, body, rfl, hj, hproc.attended⟩

/-- Two requests are answered, the first at its second store, before the evaluation breaks down. -/
theorem Manager.evaluate_attended_refused_answer : ∃ ending l' body,
    refusedAnswerBridge.evaluating = false ∧
    (Manager.ready refusedAnswerBridge).evaluate Sandbox.interpreter (some minimalHandler)
      ⟨"(+ 1 2)", "", 5⟩ = (ending, .ready l') ∧
    l'.journal = .occupy :: (body ++ [.release]) ∧ asked body = ["task 0 1 7", ""] ∧
    ∃ session stops talk, Attended Sandbox.interpreter (minimalHandler : Handler Unit)
      ⟨"(+ 1 2)", "", 5⟩ refusedAnswerBridge body session stops talk ending.reason := by
  obtain ⟨ending, l', body, heval, hj, hcases⟩ := Manager.evaluate_attended Sandbox.interpreter
    minimalHandler ⟨"(+ 1 2)", "", 5⟩ refusedAnswerBridge rfl
  have hasked : asked body = ["task 0 1 7", ""] := by
    rw [between_eq hj, ← Manager.ready.inj (congrArg Prod.snd heval)]
    decide +kernel
  refine ⟨ending, l', body, rfl, heval, hj, hasked, hcases.resolve_left fun hup => ?_⟩
  have hnone : asked body = [] := asked_eq_nil fun e he => .inr (hup.2.1 e he)
  rw [hasked] at hnone
  cases hnone

end LispBridge.Bridge
