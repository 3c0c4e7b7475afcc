import LispBridge.Bridge.DeviceHandler
import LispBridge.Proofs.Bridge.AnswerBlock
import LispBridge.Proofs.Device.EventQueues
import LispBridge.Proofs.Value.PlainText

/-!
# Events on their way to a script

A value that a script asks for is taken off its queue before the bridge sees its text. What then
stands in the answer block is that text if it fits, and falsehood if it does not
(`Manager.popped_held_iff`): the wire text of a number has all its digits, so one that was added by
a short literal can be too long.
-/

namespace LispBridge.Device.Emulator

variable {d : Emulator} {request : String} {requests : List String}

/-- The values that wait have plain texts. -/
def PlainQueues (d : Emulator) : Prop :=
  ∀ event, ∀ v ∈ d.queue event, Text.Plain v.wire

theorem PlainQueues.act (h : d.PlainQueues) (hrequest : Text.Plain request) :
    (d.act (.request (.ofText request))).PlainQueues := by
  refine forall_queue_act h fun event v hpushes => ?_
  cases hpushes with
  | request _ _ hs =>
    have hs' := Request.plain_of_mem_args hrequest (List.mem_of_getElem? hs)
    exact HostValue.plain_wire_ofWire hs'

theorem PlainQueues.serve (h : d.PlainQueues) (hrequests : ∀ r ∈ requests, Text.Plain r) :
    (d.serve requests).PlainQueues := by
  induction requests generalizing d with
  | nil => exact h
  | cons request requests ih =>
    obtain ⟨hrequest, hrequests⟩ := List.forall_mem_cons.mp hrequests
    exact ih (h.act hrequest) hrequests

end LispBridge.Device.Emulator

namespace LispBridge.Bridge

open Device

variable {σ η α : Type} {m : Module σ} {place : DevicePlace η}

/-! ## What a device replies -/

theorem Reply.exists_settle_ofDevice (capacity : Nat) (r : Except Fault String) :
    ∃ text, (Reply.ofDevice r).settle capacity = .ok text := by
  cases r with
  | ok text => exact ⟨_, rfl⟩
  | error e => exact ⟨_, rfl⟩

/-- What the handler does to a bridge whose host keeps a device. -/
theorem deviceHandler_ask {d : Emulator} {request : String} {l : Live σ η}
    (hd : place.get l.host = { device := d }) : (deviceHandler place).ask m request l =
      (.ofDevice (d.apply (.ofText request)).1,
        { l with host := place.set { device := d.serve [request] } l.host }) := by
  simp only [Handler.ask, deviceHandler, Program.run, hd]
  rfl

/-- Each request of a computation gets the reply of the device as the requests before it left it. -/
theorem Live.reply_eq_of_exchangesIn (addr : Addr) (run : Run σ α) {l : Live σ η} {d : Emulator}
    {before after : List (Exchange σ)} {x : Exchange σ}
    (hd : place.get l.host = { device := d })
    (hxs : exchangesIn m ((deviceHandler place).ask m) addr l run = before ++ x :: after) :
    x.reply = .ofDevice ((d.serve (before.map (·.request))).apply (.ofText x.request)).1 := by
  induction run generalizing l d before with
  | done | aborted => simp [exchangesIn] at hxs
  | noted note next ih =>
    rw [exchangesIn] at hxs
    exact ih (l := l.log (.note note)) hd hxs
  | suspended request s resume ih =>
    have hd' : place.get ((l.withModule s).log (.ask request)).host = { device := d } := hd
    rw [exchangesIn, deviceHandler_ask hd'] at hxs
    obtain ⟨text, hset⟩ := Reply.exists_settle_ofDevice l.settings.answerCapacity
      (d.apply (.ofText request)).1
    simp only [hset] at hxs
    cases before with
    | nil =>
      cases hxs
      rfl
    | cons y before =>
      obtain ⟨rfl, hrest⟩ := List.cons.inj hxs
      refine ih _ _ (d := d.serve [request]) ?_ hrest
      exact place.get_set _ _

/-! ## What the answer block holds -/

section
variable {capacity : Nat} {addr : Addr} {x : Exchange σ} {text : String}

theorem Exchange.Holds.fits (h : x.Holds m capacity addr text)
    (hcap : Settings.minAnswerCapacity ≤ capacity) : text.utf8ByteSize + 1 ≤ capacity := by
  cases h with
  | first hanswers => exact (hanswers.fits hcap).2
  | second => exact Nat.le_trans (by decide) hcap

/-- A module that takes what fits takes the answer at the first store. -/
theorem Exchange.Served.holds_of_accepts {posts : List Event} {st : Standing}
    (hs : x.Served m capacity addr posts) (hcap : Settings.minAnswerCapacity ≤ capacity)
    (haccept : ∀ e ∈ posts, st.Accepts e) (hb : ⟨addr, capacity⟩ ∈ st.live)
    (hanswers : x.reply.Answers capacity text) : x.Holds m capacity addr text := by
  obtain ⟨-, text', hanswers', hposted⟩ := hs
  obtain rfl := hanswers.unique hanswers'
  obtain ⟨hascii, hfit⟩ := hanswers.fits hcap
  have hposts := hposted.eq_stored haccept hascii ⟨_, hb, rfl, hfit⟩
  cases hposted with
  | stored hw => exact .first hanswers hw
  | refused => cases hposts

end

/-- A plain text that a handler answers with is in the answer block just if it fits. -/
theorem Reply.answers_answer {capacity : Nat} {text : String} (hplain : Text.Plain text) :
    (Reply.answer text).Answers capacity
      (if text.utf8ByteSize + 1 ≤ capacity then text else falseText) := by
  split
  · next hfit => exact .usable (Text.plain_iff.mp hplain).1 hfit
  · next hunfit => exact .unusable fun h => hunfit h.2

theorem Live.exchanges_device {call : Call} {l : Live σ η} {d : Emulator}
    {before after : List (Exchange σ)} {x : Exchange σ} (hd : place.get l.host = { device := d })
    (hxs : l.exchanges m (deviceHandler place) call = before ++ x :: after) :
    x.reply = .ofDevice ((d.serve (before.map (·.request))).apply (.ofText x.request)).1 := by
  rcases hacq : Session.acquire m l.settings call l.occupy.toTraced with ⟨e | session, t⟩
  · simp [exchanges, hacq] at hxs
  · rw [exchanges_of_acquired _ hacq] at hxs
    refine reply_eq_of_exchangesIn (l := l.entered m session call t) session.answer.addr _ ?_ hxs
    exact hd

/-- A plain text that answers a request is what the request finds if it fits, else falsehood is. -/
theorem Live.answer_held (m : Module σ) (handler : Handler η) (call : Call) {l : Live σ η}
    (hidle : l.evaluating = false)
    (hcap : Settings.minAnswerCapacity ≤ l.settings.answerCapacity) : ∃ body,
    (l.evaluate m (some (handler.ask m)) call).2.journal =
      l.journal ++ .occupy :: (body ++ [.release]) ∧
    asked body = (l.exchanges m handler call).map (·.request) ∧
    (Accepting (.held []) body → ∀ x ∈ l.exchanges m handler call, ∀ text,
      x.reply = .answer text → Text.Plain text → ∃ addr, x.woken = .ok addr ∧
        (x.Holds m l.settings.answerCapacity addr text ↔
          text.utf8ByteSize + 1 ≤ l.settings.answerCapacity) ∧
        (¬text.utf8ByteSize + 1 ≤ l.settings.answerCapacity →
          x.Holds m l.settings.answerCapacity addr falseText)) := by
  obtain ⟨body, hj, hasked, hposted⟩ := l.exchanges_posted m handler call hidle
  refine ⟨body, hj, hasked, fun haccept x hx text hreply hplain => ?_⟩
  obtain ⟨hbroken, -⟩ | ⟨session, posts, hsession, hserved, hposts⟩ := hposted x hx
  · rw [hreply] at hbroken
    cases hbroken
  have hb : ⟨session.answer.addr, l.settings.answerCapacity⟩ ∈ (session.running true).live :=
    hsession ▸ session.answer_mem_running true
  have hanswers : x.reply.Answers l.settings.answerCapacity _ :=
    hreply ▸ Reply.answers_answer hplain
  have hholds := hserved.holds_of_accepts hcap (hposts _ haccept) hb hanswers
  refine ⟨session.answer.addr, hserved.woken, ⟨fun h => h.fits hcap, fun hfit => ?_⟩,
    fun hunfit => ?_⟩
  · rwa [if_pos hfit] at hholds
  · rwa [if_neg hunfit] at hholds

/-- A value that a script takes off an event's queue is gone from there, and the script finds its
wire text if that fits the answer block, else falsehood. -/
theorem Manager.popped_held_iff (m : Module σ) (place : DevicePlace η) (call : Call) (l : Live σ η)
    (file : String) (counts : PinCounts) (earlier : List String) (hidle : l.evaluating = false)
    (hsettings : l.settings = (Settings.ofText file).1)
    (hdevice : place.get l.host = { device := Emulator.serve { counts } earlier }) :
    let xs := l.exchanges m (deviceHandler place) call
    let capacity := l.settings.answerCapacity
    ∃ l' body, ((Manager.ready l).evaluate m (some (deviceHandler place)) call).2 = .ready l' ∧
      l'.journal = l.journal ++ .occupy :: (body ++ [.release]) ∧
      asked body = xs.map (·.request) ∧
      ((∀ r ∈ earlier ++ xs.map (·.request), Text.Plain r) → Accepting (.held []) body →
        ∀ before x after event v rest, xs = before ++ x :: after →
        let d := Emulator.serve { counts } (earlier ++ before.map (·.request))
        (Action.request (.ofText x.request)).Pops event → d.queue event = v :: rest →
        (d.serve [x.request]).queue event = rest ∧ '\x00' ∉ v.wire.toList ∧
        ∃ addr, x.woken = .ok addr ∧
          (x.Holds m capacity addr v.wire ↔ v.wire.utf8ByteSize + 1 ≤ capacity) ∧
          (¬v.wire.utf8ByteSize + 1 ≤ capacity → x.Holds m capacity addr falseText)) := by
  intro xs capacity
  have hcap : Settings.minAnswerCapacity ≤ l.settings.answerCapacity := by
    rw [hsettings]
    exact Settings.least_le_get_ofText file .answerCapacity
  obtain ⟨body, hj, hasked, hheld⟩ := l.answer_held m (deviceHandler place) call hidle hcap
  refine ⟨_, body, rfl, hj, hasked, ?_⟩
  intro hplain haccept before x after event v rest hxs d hpops hq
  have happly : d.apply (.ofText x.request) = (.ok v.wire, d.setQueue event rest) := by
    cases hpops with
    | request hop he => exact Emulator.apply_dequeue_cons hop he hq
  have hreply : x.reply = .answer v.wire := by
    rw [Live.exchanges_device hdevice hxs, ← Emulator.serve_append, happly]
    rfl
  have hrequests : ∀ r ∈ earlier ++ before.map (·.request), Text.Plain r := by
    intro r hr
    refine hplain r ?_
    rw [hxs, List.map_append, ← List.append_assoc]
    exact List.mem_append_left _ hr
  have hempty : Emulator.PlainQueues { counts } := fun _ _ hv => nomatch hv
  have hwire := (hempty.serve hrequests) event v (hq ▸ List.mem_cons_self)
  have hx : x ∈ xs := hxs ▸ by simp
  refine ⟨?_, (Text.plain_iff.mp hwire).2, hheld haccept x hx v.wire hreply hwire⟩
  have hserve : d.serve [x.request] = d.setQueue event rest := congrArg Prod.snd happly
  rw [hserve, Emulator.queue_setQueue]

/-- A host that keeps nothing but a device. -/
def DevicePlace.self : DevicePlace Shared := ⟨id, fun device _ => device, fun _ _ => rfl⟩

/-- A sandbox that adds the value of a literal to a queue of a fresh device and takes it off. -/
def pushPopBridge (literal : String) : Live Sandbox.Machine Shared where
  module.setup :=
    { acts := some [.suspend s!"push_event e {literal}", .suspend "pop_event e", .output "1"] }
  host := {}

/-- A short number comes back to the script that has added it. -/
theorem Manager.popped_held_iff_seven :
    let m := Sandbox.interpreter
    let l := pushPopBridge "7"
    l.evaluating = false ∧ l.settings = (Settings.ofText "").1 ∧
    DevicePlace.self.get l.host = { device := Emulator.serve {} [] } ∧
    ∃ x ∈ l.exchanges m (deviceHandler .self) ⟨"s", "", 5⟩, x.request = "pop_event e" ∧
      ∃ addr, x.woken = .ok addr ∧ x.Holds m 64 addr "7" := by
  intro m l
  have hsettings : l.settings = (Settings.ofText "").1 := by decide +kernel
  obtain ⟨l', body, hl', hj, -, hheld⟩ := Manager.popped_held_iff m .self ⟨"s", "", 5⟩ l "" {} []
    rfl hsettings rfl
  have hbody : body = l'.journal.tail.dropLast := between_eq hj
  have haccept : Accepting (.held []) body := by
    rw [hbody, ← Manager.ready.inj hl']
    decide +kernel
  have hrequests : (l.exchanges m (deviceHandler .self) ⟨"s", "", 5⟩).map (·.request) =
      ["push_event e 7", "pop_event e"] := by decide +kernel
  have hplain : ∀ r ∈ [] ++ (l.exchanges m (deviceHandler .self) ⟨"s", "", 5⟩).map (·.request),
      Text.Plain r := by
    rw [hrequests]
    decide
  obtain ⟨y, ys, hxs, hy, hys⟩ := List.map_eq_cons_iff.mp hrequests
  obtain ⟨x, _, rfl, hx, hnil⟩ := List.map_eq_cons_iff.mp hys
  have hpops : (Action.request (.ofText x.request)).Pops "e" := by
    rw [hx]
    exact .request (by decide) (by decide)
  have hq : (Emulator.serve {} ([] ++ [y].map (·.request))).queue "e" =
      [HostValue.ofWire "7"] := by
    rw [List.map_singleton, hy]
    decide +kernel
  obtain ⟨-, -, addr, hwoken, hfits, -⟩ := hheld hplain haccept [y] x _ "e" _ [] hxs hpops hq
  have hseven : (HostValue.ofWire "7").wire = "7" := by decide +kernel
  rw [hseven] at hfits
  exact ⟨rfl, hsettings, rfl, x, by simp [hxs], hx, addr, hwoken, hfits.mpr (by decide +kernel)⟩

/-- A number of sixty-four digits is lost, though its literal is short. -/
theorem not_popped_held :
    let m := Sandbox.interpreter
    let l := pushPopBridge "1e63"
    let v := HostValue.ofWire "1e63"
    l.settings = (Settings.ofText "").1 ∧ ∃ body,
      (l.evaluate m (some ((deviceHandler .self).ask m)) ⟨"s", "", 5⟩).2.journal =
        .occupy :: (body ++ [.release]) ∧
      (∀ r ∈ asked body, Text.Plain r) ∧ Accepting (.held []) body ∧
      (Emulator.serve {} ["push_event e 1e63"]).queue "e" = [v] ∧
      (Emulator.serve {} ["push_event e 1e63", "pop_event e"]).queue "e" = [] ∧
      ∃ x ∈ l.exchanges m (deviceHandler .self) ⟨"s", "", 5⟩, x.request = "pop_event e" ∧
        x.reply = .answer v.wire ∧ ∃ addr, x.woken = .ok addr ∧
        x.Holds m 64 addr falseText ∧ ¬x.Holds m 64 addr v.wire := by
  intro m l v
  have hsettings : l.settings = (Settings.ofText "").1 := by decide +kernel
  obtain ⟨body, hj, hasked, hheld⟩ := l.answer_held m (deviceHandler .self) ⟨"s", "", 5⟩ rfl
    (by decide)
  have hbody : body = (l.evaluate m (some ((deviceHandler .self).ask m))
      ⟨"s", "", 5⟩).2.journal.tail.dropLast := between_eq hj
  have haccept : Accepting (.held []) body := by
    rw [hbody]
    decide +kernel
  have hlost : ∃ x ∈ l.exchanges m (deviceHandler .self) ⟨"s", "", 5⟩,
      x.request = "pop_event e" ∧ x.reply = .answer v.wire := by decide +kernel
  obtain ⟨x, hx, hrequest, hreply⟩ := hlost
  have hplain : Text.Plain v.wire ∧ ¬v.wire.utf8ByteSize + 1 ≤ 64 := by decide +kernel
  obtain ⟨addr, hwoken, hfits, hfalse⟩ := hheld haccept x hx v.wire hreply hplain.1
  refine ⟨hsettings, body, hj, ?_, haccept, by decide +kernel, by decide +kernel, x, hx, hrequest,
    hreply, addr, hwoken, hfalse hplain.2, fun h => hplain.2 (hfits.mp h)⟩
  rw [hbody]
  decide +kernel

end LispBridge.Bridge
