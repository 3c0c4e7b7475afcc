import LispBridge.Proofs.Bridge.AnswerBlock

/-!
# Handlers that break down

A handler that breaks down while it works out an answer is contained: falsehood is posted in its
place (`Exchange.Served.holds_or_refused`), and the evaluation goes on to what it comes to by itself
(`Live.evaluate_returned`). One that breaks down before that takes the caller with it, at whatever
request it does so (`Live.evaluate_broken_iff`). `Manager.evaluate_contained_iff` says of every
evaluation that is entered which of the two its caller sees.
-/

namespace LispBridge.Bridge

variable {σ η : Type}

theorem Reply.break?_eq_none_iff {reply : Reply} :
    reply.break? = none ↔ reply ≠ .crashed ∧ reply ≠ .deserted := by
  cases reply <;> simp [break?]

theorem Reply.break?_eq_crashed_iff {reply : Reply} :
    reply.break? = some .crashed ↔ reply = .crashed := by
  cases reply <;> simp [break?]

/-- The module stores falsehood neither at the first nor at the second trial. -/
def Exchange.Refused (m : Module σ) (addr : Addr) (x : Exchange σ) : Prop :=
  ∃ e e' s, m.write addr falseText x.ready = (.error e, s) ∧
    m.write addr falseText s = (.error e', x.found)

/-- After a breakdown the answer block holds falsehood, unless the module does not store it. -/
theorem Exchange.Served.holds_or_refused {m : Module σ} {capacity : Nat} {addr : Addr}
    {x : Exchange σ} {posts : List Event} (hs : x.Served m capacity addr posts)
    (haborted : x.reply = .aborted) :
    x.Holds m capacity addr falseText ∨ x.Refused m addr := by
  obtain ⟨-, text, hanswers, hposted⟩ := hs
  have hfalse : x.reply.Answers capacity falseText := haborted ▸ .aborted
  obtain rfl := hanswers.unique hfalse
  cases hposted with
  | stored hw => exact .inl (.first hfalse hw)
  | @refused s _ e r hw hw' =>
    cases r with
    | ok => exact .inl (.second hfalse hw hw')
    | error e' => exact .inr ⟨e, e', s, hw, hw'⟩

section
variable {m : Module σ} {h : Handler η} {call : Call} {l : Live σ η}

namespace Live

theorem evaluate_broken_iff (hidle : l.evaluating = false) (reason : Break) :
    (l.evaluate m (some (h.ask m)) call).1 = .broken reason ↔
      ∃ x ∈ l.exchanges m h call, x.reply.break? = some reason := by
  rcases hacq : Session.acquire m l.settings call l.occupy.toTraced with ⟨e | session, t⟩
  · have hacq' : Session.acquire m l.occupy.settings call l.occupy.toTraced = (.error e, t) := hacq
    rw [evaluate, if_neg (by simp [hidle])]
    simp [exchanges, hacq, hacq']
  · rw [(evaluate_of_acquired (h.ask m) hidle hacq).1, exchanges_of_acquired h hacq,
      ← drive_break_iff]
    cases (drive m (h.ask m) session.answer.addr _ _).1.2 <;> simp

theorem evaluate_returned {session : Session} {t : Traced σ} (hidle : l.evaluating = false)
    (hacq : Session.acquire m l.settings call l.occupy.toTraced = (.ok session, t))
    (hnone : ∀ x ∈ l.exchanges m h call, x.reply.break? = none) : ∃ value s,
    (m.evaluate (session.args l.settings call) (m.setCallback true t.module)).Course
      ((l.exchanges m h call).map (·.toStop)) value s ∧
    (l.evaluate m (some (h.ask m)) call).1 = .returned (session.result m value s) ∧
    ∀ x ∈ l.exchanges m h call, ∃ posts,
      x.Served m l.settings.answerCapacity session.answer.addr posts := by
  obtain ⟨hending, -⟩ := evaluate_of_acquired (h.ask m) hidle hacq
  have hmodule : (l.entered m session call t).module = m.setCallback true t.module := rfl
  rw [exchanges_of_acquired h hacq] at hnone ⊢
  rw [← hmodule]
  generalize m.evaluate (session.args l.settings call) (l.entered m session call t).module = run
    at hending hnone ⊢
  have hbreak : (drive m (h.ask m) session.answer.addr (l.entered m session call t) run).1.2 =
      none := by
    refine Option.eq_none_iff_forall_ne_some.mpr fun reason hreason => ?_
    obtain ⟨x, hx, hbroken⟩ := (drive_break_iff ..).mp hreason
    cases (hnone x hx).symm.trans hbroken
  have hbusy : (l.entered m session call t).evaluating = true := rfl
  obtain ⟨_, -, -, hall⟩ := drive_posted m h session.answer.addr run hbusy
  rw [hbreak] at hending
  refine ⟨_, _, drive_course m _ _ _ _ hbreak, hending, fun x hx => ?_⟩
  obtain ⟨hbroken, -⟩ | ⟨posts, hserved, -⟩ := hall x hx
  · rw [hnone x hx] at hbroken
    cases hbroken
  · exact ⟨posts, hserved⟩

end Live
end

/-- A caller is broken off just when the handler crashes at some request. All requests are answered,
breakdowns by falsehood, and the caller gets what the evaluation comes to by itself, just when the
handler neither crashes nor deserts. -/
theorem Manager.evaluate_contained_iff (m : Module σ) (h : Handler η) (call : Call) (l : Live σ η)
    (session : Session) (t : Traced σ) (hidle : l.evaluating = false)
    (hacq : Session.acquire m l.settings call l.occupy.toTraced = (.ok session, t)) :
    let ending := ((Manager.ready l).evaluate m (some h) call).1
    let xs := l.exchanges m h call
    (ending = .broken .crashed ↔ ∃ x ∈ xs, x.reply = .crashed) ∧
    ((∃ value s,
        (m.evaluate (session.args l.settings call) (m.setCallback true t.module)).Course
          (xs.map (·.toStop)) value s ∧
        ending = .returned (session.result m value s) ∧
        ∀ x ∈ xs, x.woken = .ok session.answer.addr ∧ (x.reply = .aborted →
          x.Holds m l.settings.answerCapacity session.answer.addr falseText ∨
            x.Refused m session.answer.addr)) ↔
      ∀ x ∈ xs, x.reply ≠ .crashed ∧ x.reply ≠ .deserted) := by
  intro ending xs
  have hbroken : ∀ reason, ending = .broken reason ↔ ∃ x ∈ xs, x.reply.break? = some reason :=
    l.evaluate_broken_iff hidle
  refine ⟨?_, ?_, fun hsound => ?_⟩
  · simp only [hbroken, Reply.break?_eq_crashed_iff]
  · rintro ⟨value, s, -, hreturned, -⟩ x hx
    rw [← Reply.break?_eq_none_iff]
    refine Option.eq_none_iff_forall_ne_some.mpr fun reason hreason => ?_
    cases hreturned.symm.trans ((hbroken reason).mpr ⟨x, hx, hreason⟩)
  · obtain ⟨value, s, hcourse, hreturned, hserved⟩ := l.evaluate_returned hidle hacq
      fun x hx => Reply.break?_eq_none_iff.mpr (hsound x hx)
    refine ⟨value, s, hcourse, hreturned, fun x hx => ?_⟩
    obtain ⟨posts, hserved⟩ := hserved x hx
    exact ⟨hserved.woken, hserved.holds_or_refused⟩

/-- A breakdown at the first request is contained: that request finds falsehood. -/
theorem Manager.evaluate_contained_iff_aborted :
    let l := twoRequestBridge 64 [.aborted, .answer "7"]
    let xs := l.exchanges Sandbox.interpreter scripted ⟨"s", "", 5⟩
    l.evaluating = false ∧ xs.map (·.reply) = [.aborted, .answer "7"] ∧
    xs.map (Sandbox.interpreter.read ⟨16⟩ ·.found) = [.ok "()", .ok "7"] ∧ ∃ session t value s,
      Session.acquire Sandbox.interpreter l.settings ⟨"s", "", 5⟩ l.occupy.toTraced =
        (.ok session, t) ∧
      (Sandbox.interpreter.evaluate (session.args l.settings ⟨"s", "", 5⟩)
        (Sandbox.interpreter.setCallback true t.module)).Course (xs.map (·.toStop)) value s ∧
      ((Manager.ready l).evaluate Sandbox.interpreter (some scripted) ⟨"s", "", 5⟩).1 =
        .returned (session.result Sandbox.interpreter value s) := by
  intro l xs
  have hreplies : xs.map (·.reply) = [.aborted, .answer "7"] := by decide +kernel
  have hreads : xs.map (Sandbox.interpreter.read ⟨16⟩ ·.found) = [.ok "()", .ok "7"] := by
    decide +kernel
  have hok : (Session.acquire Sandbox.interpreter l.settings ⟨"s", "", 5⟩ l.occupy.toTraced).1 =
      .ok ⟨⟨⟨16⟩, 64⟩, ⟨⟨96⟩, 10485760⟩, ⟨⟨10485872⟩, 2⟩, ⟨⟨10485890⟩, 1⟩⟩ := by decide +kernel
  rcases hacq : Session.acquire Sandbox.interpreter l.settings ⟨"s", "", 5⟩ l.occupy.toTraced with
    ⟨e | session, t⟩
  · rw [hacq] at hok
    cases hok
  have hsound : ∀ x ∈ xs, x.reply ≠ .crashed ∧ x.reply ≠ .deserted := by decide +kernel
  obtain ⟨-, hcontained⟩ := Manager.evaluate_contained_iff Sandbox.interpreter scripted
    ⟨"s", "", 5⟩ l session t rfl hacq
  obtain ⟨value, s, hcourse, hreturned, -⟩ := hcontained.mpr hsound
  exact ⟨rfl, hreplies, hreads, session, t, value, s, rfl, hcourse, hreturned⟩

/-- A handler that crashes at the second request leaves its caller without a result. -/
theorem not_evaluate_contained :
    ¬∃ result, ((Manager.ready (twoRequestBridge 64 [.answer "7", .crashed])).evaluate
      Sandbox.interpreter (some scripted) ⟨"s", "", 5⟩).1 = .returned result := by
  rintro ⟨result, hreturned⟩
  have hcrashed : ∃ x ∈ (twoRequestBridge 64 [.answer "7", .crashed]).exchanges
      Sandbox.interpreter scripted ⟨"s", "", 5⟩, x.reply.break? = some .crashed := by
    decide +kernel
  have hbroken := (Live.evaluate_broken_iff rfl .crashed).mpr hcrashed
  cases hreturned.symm.trans hbroken

end LispBridge.Bridge
