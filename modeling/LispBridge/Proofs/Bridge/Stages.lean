import LispBridge.Proofs.Bridge.BufferText
import LispBridge.Proofs.Bridge.Containment
import LispBridge.Proofs.Bridge.SingleFlight

/-!
# The stages of an evaluation

An evaluation that succeeds goes through nine stages (`agenda`), each of which can fail. What
becomes of any evaluation is said by `Attempted`: all stages, or those up to the first that fails,
whose error is the result. The journal shows the stages that are gone through and nothing else but
blocks that are given back and the outlet (`Shown`). `Manager.evaluate_attempted_iff` puts both
together for every call; only a handler that takes its caller down keeps the result from it.
-/

namespace LispBridge.Bridge

variable {σ η : Type}

/-! ## Stages -/

/-- A stage of an evaluation and what came of it. -/
inductive Stage
  | alloc (size : Nat) (result : Except ModuleError Addr)
  | store (addr : Addr) (text : String) (result : Except ModuleError Unit)
  /-- An evaluation without a result broke down. -/
  | evaluate (args : EvalArgs) (result : Option (Except ModuleError Int))
  | read (addr : Addr) (result : Except ModuleError String)
  | parse (text : String) (result : Except Json.ParseError Json)

namespace Stage

/-- The stage could also have failed in this way, with this error. -/
inductive Fails : Stage → Stage → BridgeError → Prop
  | alloc {size r e} : Fails (.alloc size r) (.alloc size (.error e)) (.module e)
  | store {addr text r e} : Fails (.store addr text r) (.store addr text (.error e)) (.module e)
  | evaluate {args r e} : Fails (.evaluate args r) (.evaluate args (some (.error e))) (.module e)
  | aborted {args r} : Fails (.evaluate args r) (.evaluate args none) .aborted
  | read {addr r e} : Fails (.read addr r) (.read addr (.error e)) (.module e)
  | parse {text r e} : Fails (.parse text r) (.parse text (.error e)) (.decode e)

/-- The events that a stage enters in the journal. A text that is not ASCII is refused without a
call; an evaluation can be in conversation with a handler, whose answers go to one address. -/
inductive Shows : Stage → List Event → Prop
  | alloc {size r} : Shows (.alloc size r) [.alloc size r]
  | stored {addr text r} : isAscii text = true → Shows (.store addr text r) [.write addr text r]
  | refused {addr text} : isAscii text = false → Shows (.store addr text (.error .notAscii)) []
  | evaluate {args r talk addr} : (∀ e ∈ talk, e.Converses addr) →
      Shows (.evaluate args r) (.enter args :: (talk ++ [.leave r]))
  | read {addr r} : Shows (.read addr r) [.read addr r]
  | parse {text} : Shows (.parse text (Json.ofText text)) []

end Stage

/-- The journal of stages, one after another. -/
inductive Shown : List Stage → List Event → Prop
  | nil : Shown [] []
  | cons {stage stages seg ev} : stage.Shows seg → Shown stages ev →
      Shown (stage :: stages) (seg ++ ev)

/-- The first of these stages, up to one that fails instead of succeeding. -/
inductive Stops : List Stage → List Stage → BridgeError → Prop
  | here {stage rest failed e} : stage.Fails failed e → Stops (stage :: rest) [failed] e
  | later {stage rest stages e} : Stops rest stages e → Stops (stage :: rest) (stage :: stages) e

/-- The stages in which the blocks at these addresses are had and filled. -/
def preparation (s : Settings) (call : Call) (answer output input library : Addr) : List Stage :=
  [.alloc s.answerCapacity (.ok answer),
    .alloc s.outputCapacity (.ok output),
    .alloc (call.script.utf8ByteSize + 1) (.ok input),
    .store input call.script (.ok ()),
    .alloc (call.library.utf8ByteSize + 1) (.ok library),
    .store library call.library (.ok ())]

/-- The stages of an evaluation that succeeds. -/
def agenda (s : Settings) (call : Call) (answer output input library : Addr) (status : Int)
    (text : String) (v : Json) : List Stage :=
  preparation s call answer output input library ++
    [.evaluate ⟨s.maxHeap, library, input, output, call.taskLimit⟩ (some (.ok status)),
      .read output (.ok text),
      .parse text (.ok v)]

/-- The stages that an evaluation goes through, and what it comes to. -/
inductive Attempted (s : Settings) (call : Call) : List Stage → Except BridgeError Json → Prop
  | succeeded {answer output input library status text v} :
      Attempted s call (agenda s call answer output input library status text v) (.ok v)
  | failed {answer output input library status text v stages e} :
      Stops (agenda s call answer output input library status text v) stages e →
      Attempted s call stages (.error e)

section
variable {xs ys stages stages' : List Stage} {e : BridgeError} {ev ev' : List Event}

theorem Stops.append_left (h : Stops ys stages e) : Stops (xs ++ ys) (xs ++ stages) e := by
  induction xs with
  | nil => exact h
  | cons x xs ih => exact .later ih

theorem Stops.append_right (h : Stops xs stages e) : Stops (xs ++ ys) stages e := by
  induction h with
  | here hf => exact .here hf
  | later _ ih => exact .later ih

theorem Stops.append_cases (h : Stops (xs ++ ys) stages e) :
    Stops xs stages e ∨ ∃ stages', stages = xs ++ stages' ∧ Stops ys stages' e := by
  induction xs generalizing stages with
  | nil => exact .inr ⟨stages, rfl, h⟩
  | cons x xs ih =>
    cases h with
    | here hf => exact .inl (.here hf)
    | later hlater =>
      obtain hxs | ⟨stages', rfl, hys⟩ := ih hlater
      · exact .inl (.later hxs)
      · exact .inr ⟨stages', rfl, hys⟩

/-- Which status, text and document would have come of later stages makes no difference. -/
theorem Attempted.of_preparation {s : Settings} {call : Call} {answer output input library : Addr}
    (h : Stops (preparation s call answer output input library) stages e) :
    Attempted s call stages (.error e) := by
  have hstops : Stops (agenda s call answer output input library 0 "" .null) stages e :=
    h.append_right
  exact .failed hstops

theorem Shown.append (h : Shown stages ev) (h' : Shown stages' ev') :
    Shown (stages ++ stages') (ev ++ ev') := by
  induction h with
  | nil => exact h'
  | cons hs _ ih =>
    rw [List.cons_append, List.append_assoc]
    exact .cons hs ih

end

/-! ## The one evaluation -/

namespace Event

/-- The arguments that an evaluation is entered with. -/
def entered? : Event → Option EvalArgs
  | .enter args => some args
  | _ => none

/-- Whether a block is given back, or the outlet is set or cleared. -/
def isCleanup : Event → Bool
  | .free _ | .callback _ => true
  | _ => false

end Event

/-- The arguments that evaluations are entered with, in order. -/
def entered (ev : List Event) : List EvalArgs := ev.filterMap Event.entered?

/-- What a journal shows but for blocks that are given back and the outlet. -/
def calls (ev : List Event) : List Event := ev.filter (!·.isCleanup)

namespace Stage

/-- The block that a stage brings into use. -/
def addr? : Stage → Option Addr
  | .alloc _ (.ok addr) => some addr
  | _ => none

def args? : Stage → Option EvalArgs
  | .evaluate args _ => some args
  | _ => none

/-- Whether a text is stored. -/
def isStored : Stage → Bool
  | .store _ _ (.ok ()) => true
  | _ => false

end Stage

theorem entered_append (ev ev' : List Event) : entered (ev ++ ev') = entered ev ++ entered ev' :=
  List.filterMap_append

theorem calls_append (ev ev' : List Event) : calls (ev ++ ev') = calls ev ++ calls ev' :=
  List.filter_append ..

theorem filterMap_calls {β : Type} {f : Event → Option β}
    (hf : ∀ e, e.isCleanup = true → f e = none) (ev : List Event) :
    (calls ev).filterMap f = ev.filterMap f := by
  rw [calls, List.filterMap_filter]
  refine List.filterMap_congr fun e _ => ?_
  cases he : e.isCleanup with
  | true => exact (hf e he).symm
  | false => rfl

theorem entered_calls (ev : List Event) : entered (calls ev) = entered ev :=
  filterMap_calls (fun e he => by cases e <;> first | rfl | cases he) ev

theorem allocated_calls (ev : List Event) : allocated (calls ev) = allocated ev :=
  filterMap_calls (fun e he => by cases e <;> first | rfl | cases he) ev

section
variable {addr : Addr} {ev : List Event} (h : ∀ e ∈ ev, e.Converses addr)
include h

theorem calls_of_converses : calls ev = ev := by
  refine List.filter_eq_self.mpr fun e he => ?_
  have hconv := h e he
  cases e <;> first | rfl | exact hconv.elim

theorem entered_of_converses : entered ev = [] := by
  refine List.filterMap_eq_nil_iff.mpr fun e he => ?_
  have hconv := h e he
  cases e <;> first | rfl | exact hconv.elim

theorem allocated_of_converses : allocated ev = [] := by
  refine List.filterMap_eq_nil_iff.mpr fun e he => ?_
  have hconv := h e he
  cases e <;> first | rfl | exact hconv.elim

end

/-- A stage that is shown shows its block and its evaluation. -/
theorem Stage.Shows.entered_allocated {stage : Stage} {seg : List Event} (h : stage.Shows seg) :
    entered seg = stage.args?.toList ∧ allocated seg = stage.addr?.toList := by
  cases h with
  | @alloc size r => cases r <;> exact ⟨rfl, rfl⟩
  | stored | refused | read | parse => exact ⟨rfl, rfl⟩
  | @evaluate args r talk addr htalk =>
    refine ⟨?_, ?_⟩
    · change args :: entered (talk ++ [.leave r]) = _
      rw [entered_append, entered_of_converses htalk]
      rfl
    · change allocated (talk ++ [.leave r]) = _
      rw [allocated, List.filterMap_append, ← allocated, allocated_of_converses htalk]
      rfl

theorem Shown.entered_allocated {stages : List Stage} {ev : List Event} (h : Shown stages ev) :
    entered ev = stages.filterMap Stage.args? ∧ allocated ev = stages.filterMap Stage.addr? := by
  induction h with
  | nil => exact ⟨rfl, rfl⟩
  | @cons stage stages seg ev hs _ ih =>
    obtain ⟨hargs, haddr⟩ := hs.entered_allocated
    rw [entered_append, allocated, List.filterMap_append, ← allocated, ← allocated, hargs, haddr,
      ih.1, ih.2, List.filterMap_cons, List.filterMap_cons]
    exact ⟨by cases stage.args? <;> rfl, by cases stage.addr? <;> rfl⟩

/-- The module is entered at most once: when both texts are stored, with the blocks that were
had. -/
theorem Attempted.args_cases {s : Settings} {call : Call} {stages : List Stage}
    {verdict : Except BridgeError Json} (h : Attempted s call stages verdict) :
    (stages.filterMap Stage.args? = [] ∧ stages.countP Stage.isStored < 2) ∨
    ∃ answer output input library,
      stages.filterMap Stage.args? = [⟨s.maxHeap, library, input, output, call.taskLimit⟩] ∧
      stages.filterMap Stage.addr? = [answer, output, input, library] ∧
      stages.countP Stage.isStored = 2 := by
  cases h with
  | succeeded => exact .inr ⟨_, _, _, _, rfl, rfl, rfl⟩
  | failed h =>
    obtain hearly | ⟨closing, rfl, hlate⟩ := h.append_cases
    · left
      obtain hf | hf | hf | hf | hf | hf | hf := hearly <;> cases hf <;>
        exact ⟨rfl, by simp [List.countP_cons, Stage.isStored]⟩
    · right
      obtain hf | hf | hf | hf := hlate <;> cases hf <;> exact ⟨_, _, _, _, rfl, rfl, rfl⟩

/-! ## Progress -/

/-- Since the journal was `j`, these stages have been gone through. -/
def Progress (j : List Event) (t : Traced σ) (stages : List Stage) : Prop :=
  ∃ ev, t.journal = j ++ ev ∧ Shown stages (calls ev)

namespace Progress

variable {m : Module σ} {j seg : List Event} {t t' : Traced σ} {stages : List Stage}
  {text : String}

theorem refl (t : Traced σ) : Progress t.journal t [] :=
  ⟨[], (List.append_nil _).symm, .nil⟩

theorem step {stage : Stage} (h : Progress j t stages) (hj : t'.journal = t.journal ++ seg)
    (hs : stage.Shows (calls seg)) : Progress j t' (stages ++ [stage]) := by
  obtain ⟨ev, hev, hshown⟩ := h
  refine ⟨ev ++ seg, by rw [hj, hev, List.append_assoc], ?_⟩
  have hone : Shown [stage] (calls seg ++ []) := .cons hs .nil
  rw [List.append_nil] at hone
  rw [calls_append]
  exact hshown.append hone

theorem cleanup (h : Progress j t stages) (hj : t'.journal = t.journal ++ seg)
    (hs : calls seg = []) : Progress j t' stages := by
  obtain ⟨ev, hev, hshown⟩ := h
  refine ⟨ev ++ seg, by rw [hj, hev, List.append_assoc], ?_⟩
  rwa [calls_append, hs, List.append_nil]

theorem free (h : Progress j t stages) (b : Buffer) : Progress j (b.free m t) stages :=
  h.cleanup rfl rfl

theorem alloc {size : Nat} {r : Except ModuleError Buffer} (h : Progress j t stages)
    (hr : Buffer.alloc m size t = (r, t')) :
    Progress j t' (stages ++ [.alloc size (r.map Buffer.addr)]) := by
  have hstep : Progress j (t.alloc m size).2 (stages ++ [.alloc size (t.alloc m size).1]) :=
    h.step rfl .alloc
  unfold Buffer.alloc at hr
  rcases ht : t.alloc m size with ⟨_ | addr, t₁⟩ <;> rw [ht] at hr hstep <;> cases hr
  · exact hstep
  · exact hstep

/-- Where there is room for a text, it is refused for its characters alone. -/
theorem store {b : Buffer} {r : Except ModuleError Unit} (h : Progress j t stages)
    (hfit : b.capacity = text.utf8ByteSize + 1) (hr : b.write m text t = (r, t')) :
    Progress j t' (stages ++ [.store b.addr text r]) := by
  unfold Buffer.write at hr
  cases hascii : isAscii text with
  | true =>
    have hrefusal : b.refusal? text = none := Buffer.refusal?_eq_none_iff.mpr ⟨hascii, hfit.ge⟩
    rw [hrefusal] at hr
    obtain ⟨rfl, rfl⟩ := Prod.mk.inj hr
    exact h.step rfl (.stored hascii)
  | false =>
    have hrefusal : b.refusal? text = some .notAscii := by simp [Buffer.refusal?, hascii]
    rw [hrefusal] at hr
    cases hr
    exact h.step (List.append_nil _).symm (.refused hascii)

/-- A text is stored in a block of its own. -/
def textStages (text : String) (addr : Addr) : List Stage :=
  [.alloc (text.utf8ByteSize + 1) (.ok addr), .store addr text (.ok ())]

theorem ofText {r : Except ModuleError Buffer} (h : Progress j t stages)
    (hr : Buffer.ofText m text t = (r, t')) :
    match r with
    | .ok b => Progress j t' (stages ++ textStages text b.addr)
    | .error e => ∃ addr tail, Stops (textStages text addr) tail (.module e) ∧
        Progress j t' (stages ++ tail) := by
  cases r with
  | ok b =>
    obtain ⟨t₁, ha, hw⟩ := Buffer.ofText_eq_ok hr
    have h₂ := (h.alloc ha).store (Buffer.capacity_of_alloc ha) hw
    rwa [List.append_assoc] at h₂
  | error e =>
    obtain ha | ⟨b, t₁, t₂, ha, hw, rfl⟩ := Buffer.ofText_eq_error hr
    · exact ⟨⟨0⟩, _, .here .alloc, h.alloc ha⟩
    · have h₂ := ((h.alloc ha).store (Buffer.capacity_of_alloc ha) hw).free (m := m) b
      rw [List.append_assoc] at h₂
      exact ⟨b.addr, _, .later (.here .store), h₂⟩

/-- The blocks that were had before one that cannot be had are given back, which is no stage. -/
theorem acquire {s : Settings} {call : Call} {r : Except ModuleError Session}
    (hr : Session.acquire m s call t = (r, t')) :
    match r with
    | .ok b => Progress t.journal t'
        (preparation s call b.answer.addr b.output.addr b.input.addr b.library.addr)
    | .error e => ∃ answer output input library stages,
        Stops (preparation s call answer output input library) stages (.module e) ∧
        Progress t.journal t' stages := by
  cases Session.acquired_of_acquire hr with
  | noAnswer ha => exact ⟨⟨0⟩, ⟨0⟩, ⟨0⟩, ⟨0⟩, _, .here .alloc, (refl t).alloc ha⟩
  | @noOutput answer _ _ _ ha ho =>
    have h₂ := ((refl t).alloc ha).alloc ho
    exact ⟨answer.addr, ⟨0⟩, ⟨0⟩, ⟨0⟩, _, .later (.here .alloc), h₂.free _⟩
  | @noInput answer _ output _ _ _ ha ho hi =>
    obtain ⟨addr, tail, hstops, h₃⟩ := (((refl t).alloc ha).alloc ho).ofText hi
    exact ⟨answer.addr, output.addr, addr, ⟨0⟩, _, .later (.later hstops.append_right),
      (h₃.free _).free _⟩
  | @noLibrary answer _ output _ input _ _ _ ha ho hi hl =>
    have h₃ := (((refl t).alloc ha).alloc ho).ofText hi
    obtain ⟨addr, tail, hstops, h₄⟩ := h₃.ofText hl
    exact ⟨answer.addr, output.addr, input.addr, addr, _,
      .later (.later (.later (.later hstops))), ((h₄.free _).free _).free _⟩
  | all ha ho hi hl =>
    have h₃ := (((refl t).alloc ha).alloc ho).ofText hi
    exact h₃.ofText hl

end Progress

/-! ## From the evaluation to its result -/

namespace Session

/-- The stages that follow when an evaluation has ended with a value, in a state of the module. -/
def closing (m : Module σ) (session : Session) (args : EvalArgs)
    (value : Option (Except ModuleError Int)) (s : σ) : List Stage :=
  match value, m.read session.output.addr s with
  | some (.ok status), .ok text =>
    [.evaluate args (some (.ok status)), .read session.output.addr (.ok text),
      .parse text (Json.ofText text)]
  | some (.ok status), .error e =>
    [.evaluate args (some (.ok status)), .read session.output.addr (.error e)]
  | value, _ => [.evaluate args value]

variable (m : Module σ) (session : Session) (settings : Settings) (call : Call)

/-- The result of an evaluation is what its stages come to. -/
theorem attempted_closing (value : Option (Except ModuleError Int)) (s : σ) : ∃ verdict,
    Attempted settings call
      (preparation settings call session.answer.addr session.output.addr session.input.addr
        session.library.addr ++ session.closing m (session.args settings call) value s) verdict ∧
    session.result m value s = verdict.map some := by
  have stopped (status : Int) (text : String) {stages : List Stage} {e : BridgeError}
      (h : Stops [.evaluate (session.args settings call) (some (.ok status)),
        .read session.output.addr (.ok text), .parse text (.ok .null)] stages e) :
      Attempted settings call (preparation settings call session.answer.addr session.output.addr
        session.input.addr session.library.addr ++ stages) (.error e) :=
    .failed h.append_left
  unfold closing result
  rcases value with _ | e | status
  · exact ⟨.error .aborted, stopped 0 "" (.here .aborted), rfl⟩
  · exact ⟨.error (.module e), stopped 0 "" (.here .evaluate), rfl⟩
  cases m.read session.output.addr s with
  | error e => exact ⟨.error (.module e), stopped status "" (.later (.here .read)), rfl⟩
  | ok text =>
    simp only [Live.decode]
    cases Json.ofText text with
    | error e =>
      exact ⟨.error (.decode e), stopped status text (.later (.later (.here .parse))), rfl⟩
    | ok v => exact ⟨.ok v, .succeeded, rfl⟩

variable {m session} {j seg talk : List Event} {t t' : Traced σ} {stages : List Stage}
  {args : EvalArgs} {addr : Addr} {value : Option (Except ModuleError Int)}

theorem calls_conversation (htalk : ∀ e ∈ talk, e.Converses addr) :
    calls (.enter args :: (talk ++ [.leave value])) = .enter args :: (talk ++ [.leave value]) := by
  change .enter args :: calls (talk ++ [.leave value]) = _
  rw [calls_append, calls_of_converses htalk]
  rfl

/-- Once an evaluation has been left, its output is read and the session closed. -/
theorem outcome_progress (h : Progress j t stages) (htalk : ∀ e ∈ talk, e.Converses addr)
    (hj : t'.journal = t.journal ++ .enter args :: (talk ++ [.leave value])) :
    Progress j (session.close m (session.outcome m value t').2)
      (stages ++ session.closing m args value t'.module) := by
  have hleft : Progress j t' (stages ++ [.evaluate args value]) :=
    h.step hj ((calls_conversation htalk).symm ▸ .evaluate htalk)
  suffices houtcome : Progress j (session.outcome m value t').2
      (stages ++ session.closing m args value t'.module) from
    houtcome.cleanup (session.close_journal m _) rfl
  unfold outcome closing
  rcases value with _ | e | status
  · exact hleft
  · exact hleft
  have hread : Progress j (session.output.read m t').2
      (stages ++ [.evaluate args (some (.ok status))] ++
        [.read session.output.addr (m.read session.output.addr t'.module)]) :=
    hleft.step rfl .read
  have hread_eq : (session.output.read m t').1 = m.read session.output.addr t'.module := rfl
  rcases hr : session.output.read m t' with ⟨r, t₁⟩
  rw [hr] at hread hread_eq
  obtain rfl := hread_eq
  simp only
  cases hresult : m.read session.output.addr t'.module with
  | error e => simpa [hresult] using hread
  | ok text =>
    have hparse : Progress j t₁ (stages ++ [.evaluate args (some (.ok status))] ++
        [.read session.output.addr (.ok text)] ++ [.parse text (Json.ofText text)]) :=
      (hresult ▸ hread).step (List.append_nil _).symm .parse
    simpa using hparse

end Session

namespace Live

variable {m : Module σ} {call : Call} {l : Live σ η}

theorem conclude_returned {session : Session}
    {ran : (Option (Except ModuleError Int) × Option Break) × Live σ η} (h : ran.1.2 = none) :
    (conclude m session ran).1.map (·.bind decode) =
      .returned (session.result m ran.1.1 ran.2.module) := by
  have hresult : session.result m ran.1.1 ran.2.module = _ :=
    session.result_eq m ran.1.1 (ran.2.log (.leave ran.1.1)).toTraced
  rw [hresult, conclude, h]
  rfl

/-- The stages that an evaluation goes through, and what they come to, which its caller gets unless
the handler takes it down. -/
theorem evaluate_stages (handler : Option (Handler η)) (hidle : l.evaluating = false) :
    let r := l.evaluate m (handler.map (Handler.ask m)) call
    ∃ stages verdict body, Attempted l.settings call stages verdict ∧
      r.2.journal = l.journal ++ .occupy :: (body ++ [.release]) ∧ Shown stages (calls body) ∧
      (r.1.reason = none → r.1 = .returned (verdict.map some)) := by
  intro r
  rcases hacq : Session.acquire m l.settings call l.occupy.toTraced with ⟨e | session, t⟩ <;>
    have hprogress := Progress.acquire hacq
  · obtain ⟨answer, output, input, library, stages, hstops, body, hj, hshown⟩ := hprogress
    have hr : r = _ := evaluate_of_refused (handler.map (Handler.ask m)) hidle hacq
    refine ⟨stages, _, body, .of_preparation hstops, ?_, hshown, fun _ => congrArg Prod.fst hr⟩
    calc r.2.journal
      _ = t.journal ++ [.release] := by rw [hr]; rfl
      _ = l.journal ++ [.occupy] ++ body ++ [.release] := by rw [hj]; rfl
      _ = _ := by simp only [List.append_assoc, List.cons_append, List.nil_append]
  · obtain ⟨ran, stops, talk, hrun, -, hj, -, htalk⟩ :=
      run_converse m handler session call (l := l.occupy.withTraced t) rfl
    have hr : r = _ := evaluate_eq_run m (handler.map (Handler.ask m)) hidle hacq
    rw [hrun] at hr
    let left := (ran.2.log (.leave ran.1.1)).toTraced
    obtain ⟨verdict, hattempted, hresult⟩ :=
      session.attempted_closing m l.settings call ran.1.1 ran.2.module
    have hentered : Progress l.occupy.journal (t.setCallback m handler.isSome) _ :=
      hprogress.cleanup rfl rfl
    have hleft : left.journal = (t.setCallback m handler.isSome).journal ++
        .enter (session.args l.settings call) :: (talk ++ [.leave ran.1.1]) := by
      calc left.journal
        _ = ran.2.journal ++ [.leave ran.1.1] := rfl
        _ = t.journal ++ .callback handler.isSome ::
            .enter (session.args l.settings call) :: talk ++ [.leave ran.1.1] := by rw [hj]; rfl
        _ = t.journal ++ [.callback handler.isSome] ++
            .enter (session.args l.settings call) :: (talk ++ [.leave ran.1.1]) := by
          simp only [List.append_assoc, List.cons_append, List.nil_append]
    obtain ⟨body, hbody, hshown⟩ := Session.outcome_progress hentered htalk.converses hleft
    refine ⟨_, verdict, body, hattempted, ?_, hshown, fun hreason => ?_⟩
    · calc r.2.journal
        _ = (session.close m (session.outcome m ran.1.1 left).2).journal ++ [.release] := by
          rw [hr]; rfl
        _ = l.journal ++ [.occupy] ++ body ++ [.release] := by rw [hbody]; rfl
        _ = _ := by simp only [List.append_assoc, List.cons_append, List.nil_append]
    · rw [hr, Ending.reason_map, conclude_reason] at hreason
      rw [← hresult, hr, conclude_returned hreason]

end Live

/-- The exchanges of an evaluation with its handler; without one there are none. -/
def Live.exchanges? (m : Module σ) (handler : Option (Handler η)) (call : Call) (l : Live σ η) :
    List (Exchange σ) :=
  handler.elim [] fun h => l.exchanges m h call

theorem Ending.reason_eq_some_iff {α : Type} {ending : Ending α} {reason : Break} :
    ending.reason = some reason ↔ ending = .broken reason := by
  cases ending <;> simp [Ending.reason]

theorem Proceedings.broken_eq_none {m : Module σ} {call : Call} {l : Live σ η} {body : List Event}
    {broken : Option Break} (h : Proceedings m none call l body broken) : broken = none := by
  cases h with
  | refused => rfl
  | held _ _ _ _ _ _ htalk => exact htalk.2

theorem Live.reason_eq_none_iff {m : Module σ} {call : Call} {l : Live σ η}
    (handler : Option (Handler η)) (hidle : l.evaluating = false) :
    (l.evaluate m (handler.map (Handler.ask m)) call).1.reason = none ↔
      ∀ x ∈ l.exchanges? m handler call, x.reply ≠ .crashed ∧ x.reply ≠ .deserted := by
  cases handler with
  | none =>
    obtain ⟨-, -, body, -, hproc⟩ := l.evaluate_proceedings m none call hidle
    exact ⟨fun _ => nofun, fun _ => hproc.broken_eq_none⟩
  | some h =>
    have hbroken : ∀ reason, (l.evaluate m (some (h.ask m)) call).1.reason = some reason ↔
        ∃ x ∈ l.exchanges m h call, x.reply.break? = some reason := fun reason =>
      Ending.reason_eq_some_iff.trans (l.evaluate_broken_iff hidle reason)
    simp only [exchanges?, Option.elim_some, Option.map_some, ← Reply.break?_eq_none_iff,
      Option.eq_none_iff_forall_ne_some, ne_eq, hbroken]
    exact ⟨fun hnone x hx reason hreason => hnone reason ⟨x, hx, hreason⟩,
      fun hnone reason ⟨x, hx, hreason⟩ => hnone x hx reason hreason⟩

/-- An evaluation is turned away just if no module is installed or the slot is taken, and then
nothing happens. Any other goes through its stages up to the first that fails. The module is entered
at most once, when both texts are stored, and with the blocks that were had. What the stages come
to is what the caller gets just when the handler neither crashes nor deserts. -/
theorem Manager.evaluate_attempted_iff (m : Module σ) (handler : Option (Handler η)) (call : Call)
    (mgr : Manager σ η) :
    let r := mgr.evaluate m handler call
    (r.1 = .returned (.ok none) ↔ mgr.isReady = false ∨ mgr.isEvaluating = true) ∧
    (mgr.isReady = false ∨ mgr.isEvaluating = true → r.2 = mgr) ∧
    ∀ l, mgr = .ready l → l.evaluating = false → ∃ l' stages verdict body,
      Attempted l.settings call stages verdict ∧
      r.2 = .ready l' ∧ l'.journal = l.journal ++ .occupy :: (body ++ [.release]) ∧
      Shown stages (calls body) ∧
      ((entered body = [] ∧ stages.countP Stage.isStored < 2) ∨
        ∃ answer output input library,
          entered body = [⟨l.settings.maxHeap, library, input, output, call.taskLimit⟩] ∧
          allocated body = [answer, output, input, library] ∧
          stages.countP Stage.isStored = 2) ∧
      (r.1 = .returned (verdict.map some) ↔
        ∀ x ∈ l.exchanges? m handler call, x.reply ≠ .crashed ∧ x.reply ≠ .deserted) := by
  intro r
  have hstages : ∀ l, mgr = .ready l → l.evaluating = false → ∃ l' stages verdict body,
      Attempted l.settings call stages verdict ∧
      r.2 = .ready l' ∧ l'.journal = l.journal ++ .occupy :: (body ++ [.release]) ∧
      Shown stages (calls body) ∧ (r.1.reason = none → r.1 = .returned (verdict.map some)) ∧
      (r.1.reason = none ↔
        ∀ x ∈ l.exchanges? m handler call, x.reply ≠ .crashed ∧ x.reply ≠ .deserted) := by
    rintro l rfl hidle
    obtain ⟨stages, verdict, body, hattempted, hj, hshown, hreturned⟩ :=
      l.evaluate_stages handler hidle
    exact ⟨_, stages, verdict, body, hattempted, rfl, hj, hshown, hreturned,
      l.reason_eq_none_iff handler hidle⟩
  refine ⟨⟨fun hnone => ?_, fun h => congrArg Prod.fst (evaluate_declined h handler call)⟩,
    fun h => congrArg Prod.snd (evaluate_declined h handler call), fun l hl hidle => ?_⟩
  · cases mgr with
    | waiting => exact .inl rfl
    | ready l =>
      refine .inr (eq_true_of_ne_false fun hidle => ?_)
      obtain ⟨_, _, verdict, _, -, -, -, -, hreturned, -⟩ := hstages l rfl hidle
      have hverdict := hreturned (congrArg Ending.reason hnone)
      rw [hnone] at hverdict
      cases verdict <;> cases hverdict
  · obtain ⟨l', stages, verdict, body, hattempted, hl', hj, hshown, hreturned, hreason⟩ :=
      hstages l hl hidle
    obtain ⟨hentered, hallocated⟩ := hshown.entered_allocated
    rw [entered_calls] at hentered
    rw [allocated_calls] at hallocated
    refine ⟨l', stages, verdict, body, hattempted, hl', hj, hshown, ?_, ?_⟩
    · rw [hentered, hallocated]
      exact hattempted.args_cases
    · rw [← hreason]
      exact ⟨fun h => congrArg Ending.reason h, hreturned⟩

/-- Two requests are answered, and the evaluation is entered with the blocks that were had. -/
theorem Manager.evaluate_attempted_iff_two_requests :
    let l := twoRequestBridge 64 [.answer "7", .aborted]
    let r := (Manager.ready l).evaluate Sandbox.interpreter (some scripted) ⟨"s", "", 5⟩
    l.evaluating = false ∧ (∃ l' stages verdict body,
      Attempted l.settings ⟨"s", "", 5⟩ stages verdict ∧ r.2 = .ready l' ∧
      l'.journal = .occupy :: (body ++ [.release]) ∧ Shown stages (calls body) ∧
      entered body = [⟨10000, ⟨10485890⟩, ⟨10485872⟩, ⟨96⟩, 5⟩] ∧
      r.1 = .returned (verdict.map some)) := by
  intro l r
  obtain ⟨-, -, hready⟩ := Manager.evaluate_attempted_iff Sandbox.interpreter (some scripted)
    ⟨"s", "", 5⟩ (.ready l)
  obtain ⟨l', stages, verdict, body, hattempted, hl', hj, hshown, -, hreturned⟩ := hready l rfl rfl
  have hsound : ∀ x ∈ l.exchanges? Sandbox.interpreter (some scripted) ⟨"s", "", 5⟩,
      x.reply ≠ .crashed ∧ x.reply ≠ .deserted := by decide +kernel
  have hentered : entered body = [⟨10000, ⟨10485890⟩, ⟨10485872⟩, ⟨96⟩, 5⟩] := by
    rw [between_eq hj, ← Manager.ready.inj hl']
    decide +kernel
  exact ⟨rfl, l', stages, verdict, body, hattempted, hl', hj, hshown, hentered,
    hreturned.mpr hsound⟩

/-- A handler that crashes keeps its caller from the result, though all stages succeed. -/
theorem not_evaluate_attempted :
    let l := twoRequestBridge 64 [.crashed]
    let r := l.evaluate Sandbox.interpreter (some (scripted.ask Sandbox.interpreter)) ⟨"s", "", 5⟩
    l.evaluating = false ∧ .leave (some (.ok 0)) ∈ r.2.journal ∧
    .read ⟨96⟩ (.ok "1") ∈ r.2.journal ∧ (∃ v, Json.ofText "1" = .ok v) ∧
    ¬∃ result, r.1 = .returned result := by
  intro l r
  have hleave : .leave (some (.ok 0)) ∈ r.2.journal := by decide +kernel
  have hread : .read ⟨96⟩ (.ok "1") ∈ r.2.journal := by decide +kernel
  have hcrashed : ∃ x ∈ l.exchanges Sandbox.interpreter scripted ⟨"s", "", 5⟩,
      x.reply.break? = some .crashed := by decide +kernel
  refine ⟨rfl, hleave, hread, ?_, ?_⟩
  · have hparse : (Json.ofText "1").toBool = true := by decide +kernel
    cases hv : Json.ofText "1" with
    | error e => rw [hv] at hparse; cases hparse
    | ok v => exact ⟨v, rfl⟩
  · rintro ⟨result, hreturned⟩
    cases hreturned.symm.trans ((Live.evaluate_broken_iff rfl .crashed).mpr hcrashed)

end LispBridge.Bridge
