import Mathlib.Data.List.Nodup
import LispBridge.Proofs.Bridge.Exchanges

/-!
# What the answer block holds when an evaluation goes on

With a module that stores a text just when it fits its block (`Exact`), a request finds its own
answer in the answer block (`Exchange.Holds`) as long as falsehood fits that block. With a smaller
block it does so just where the handler's own text could be stored; else it finds what stood there
before (`Manager.answers_held_iff`).
-/

namespace LispBridge.Bridge

variable {σ η : Type}

/-! ## Modules that store what fits -/

namespace Standing

def Fits (st : Standing) (addr : Addr) (text : String) : Prop :=
  ∃ b ∈ st.live, b.addr = addr ∧ text.utf8ByteSize + 1 ≤ b.capacity

/-- An address names one block, and a text is stored there just when it fits. -/
def Exacts (st : Standing) : Event → Prop
  | .alloc _ (.ok addr) => addr ∉ st.addrs
  | .write addr text r => r = .ok () ↔ st.Fits addr text
  | _ => True

instance (st : Standing) (addr : Addr) (text : String) : Decidable (st.Fits addr text) :=
  inferInstanceAs (Decidable (∃ b ∈ st.live, _))

instance (st : Standing) : (e : Event) → Decidable (st.Exacts e)
  | .alloc _ (.ok addr) => inferInstanceAs (Decidable (addr ∉ st.addrs))
  | .write addr text r => inferInstanceAs (Decidable (r = .ok () ↔ st.Fits addr text))
  | .alloc _ (.error _) | .free _ | .read .. | .callback _ | .enter _ | .leave _ | .terminate
  | .ask _ | .wake _ | .occupy | .release | .note _ => inferInstanceAs (Decidable True)

theorem Exacts.spares {st : Standing} {e : Event} (h : st.Exacts e) : st.Spares e := by
  cases e with
  | alloc _ r => cases r <;> exact h
  | _ => trivial

theorem fits_iff {st : Standing} {b : Buffer} {text : String} (hn : st.addrs.Nodup)
    (hb : b ∈ st.live) : st.Fits b.addr text ↔ text.utf8ByteSize + 1 ≤ b.capacity := by
  constructor
  · rintro ⟨b', hb', haddr, hfit⟩
    rwa [List.inj_on_of_nodup_map hn hb' hb haddr] at hfit
  · intro hfit
    exact ⟨b, hb, rfl, hfit⟩

end Standing

abbrev Exact : Standing → List Event → Prop := Along Standing.Exacts

theorem Exact.nodup {st : Standing} {ev : List Event} (h : Exact st ev) (hn : st.addrs.Nodup) :
    Along (fun st e => st.Exacts e ∧ st.addrs.Nodup) st ev := by
  induction ev generalizing st with
  | nil => trivial
  | cons e ev ih =>
    have hfresh : Fresh st [e] := ⟨h.1.spares, trivial⟩
    exact ⟨⟨h.1, hn⟩, ih h.2 (hfresh.nodup_addrs hn)⟩

/-! ## The answer to one request -/

/-- The reply is a text that an answer block can hold. -/
def Reply.Usable (capacity : Nat) (reply : Reply) : Prop :=
  ∃ text, reply = .answer text ∧ isAscii text = true ∧ text.utf8ByteSize + 1 ≤ capacity

/-- The block at an address holds a text as the answer to the request: the evaluation goes on right
after the text was stored, at the first or the second trial. -/
inductive Exchange.Holds (m : Module σ) (capacity : Nat) (addr : Addr) (x : Exchange σ) :
    String → Prop
  | first {text} : x.reply.Answers capacity text → m.write addr text x.ready = (.ok (), x.found) →
      Holds m capacity addr x text
  | second {text e s} : x.reply.Answers capacity text → m.write addr text x.ready = (.error e, s) →
      m.write addr falseText s = (.ok (), x.found) → Holds m capacity addr x falseText

section
variable {m : Module σ} {capacity : Nat} {addr : Addr} {x : Exchange σ} {posts : List Event}
  {reply : Reply} {text : String}

theorem Reply.Answers.settle_eq (h : reply.Answers capacity text) :
    reply.settle capacity = .ok text := by
  cases h with
  | usable hascii hfit =>
    simp only [settle, Bridge.usable, hascii, hfit, decide_true, Bool.and_self, if_true]
  | unusable h => simp only [settle, Bridge.usable, Bool.and_eq_true, decide_eq_true_eq, if_neg h]
  | failed | aborted => rfl

theorem Reply.Answers.unique {text' : String} (h : reply.Answers capacity text)
    (h' : reply.Answers capacity text') : text = text' :=
  Except.ok.inj (h.settle_eq.symm.trans h'.settle_eq)

theorem Reply.Answers.eq_falseText (h : reply.Answers capacity text)
    (hunfit : ¬text.utf8ByteSize + 1 ≤ capacity) : text = falseText := by
  cases h with
  | usable _ hfit => exact absurd hfit hunfit
  | unusable | failed | aborted => rfl

theorem Reply.Answers.fits_iff (h : reply.Answers capacity text) :
    text.utf8ByteSize + 1 ≤ capacity ↔
      Settings.minAnswerCapacity ≤ capacity ∨ reply.Usable capacity := by
  have hfalse : falseText.utf8ByteSize + 1 = Settings.minAnswerCapacity := by decide
  cases h with
  | usable hascii hfit => exact ⟨fun _ => .inr ⟨_, rfl, hascii, hfit⟩, fun _ => hfit⟩
  | unusable hunusable =>
    rw [hfalse, or_iff_left]
    rintro ⟨_, ⟨⟩, husable⟩
    exact hunusable husable
  | failed | aborted =>
    rw [hfalse, or_iff_left]
    rintro ⟨_, ⟨⟩, -⟩

/-- A module that stores what fits lets the answer block hold an answer just if falsehood fits or
the reply is usable. -/
theorem Exchange.Served.holds_iff (hs : x.Served m capacity addr posts)
    (hexact : ∀ text r, .write addr text r ∈ posts →
      (r = .ok () ↔ text.utf8ByteSize + 1 ≤ capacity)) :
    (∃ text, x.Holds m capacity addr text) ↔
      Settings.minAnswerCapacity ≤ capacity ∨ x.reply.Usable capacity := by
  obtain ⟨-, text, hanswers, hposted⟩ := hs
  rw [← hanswers.fits_iff]
  cases hposted with
  | stored hw =>
    have hfit := (hexact text _ List.mem_cons_self).mp rfl
    exact ⟨fun _ => hfit, fun _ => ⟨text, .first hanswers hw⟩⟩
  | @refused s' _ e r hw hw' =>
    -- A text that is refused at first is falsehood already, so the second trial is no other.
    have hunfit : ¬text.utf8ByteSize + 1 ≤ capacity := fun hfit =>
      nomatch (hexact text _ List.mem_cons_self).mpr hfit
    have hagain : r ≠ .ok () := by
      intro hr
      have hfit := (hexact falseText r (by simp)).mp hr
      rw [← hanswers.eq_falseText hunfit] at hfit
      exact hunfit hfit
    refine iff_of_false ?_ hunfit
    rintro ⟨_, hholds⟩
    cases hholds with
    | first hanswers' hstore =>
      rw [← hanswers.unique hanswers', hw] at hstore
      cases hstore
    | second hanswers' hfirst hstore =>
      rw [← hanswers.unique hanswers', hw] at hfirst
      cases hfirst
      rw [hw'] at hstore
      exact hagain (congrArg Prod.fst hstore)

end

/-! ## The answers of an evaluation -/

theorem Live.exchanges_hold_iff (m : Module σ) (h : Handler η) (call : Call) {l : Live σ η}
    (hidle : l.evaluating = false) : ∃ body,
    (l.evaluate m (some (h.ask m)) call).2.journal =
      l.journal ++ .occupy :: (body ++ [.release]) ∧
    asked body = (l.exchanges m h call).map (·.request) ∧
    (Exact (.held []) body → ∀ x ∈ l.exchanges m h call, ∀ addr, x.woken = .ok addr →
      ((∃ text, x.Holds m l.settings.answerCapacity addr text) ↔
        Settings.minAnswerCapacity ≤ l.settings.answerCapacity ∨
          x.reply.Usable l.settings.answerCapacity)) := by
  obtain ⟨body, hj, hasked, hposted⟩ := l.exchanges_posted m h call hidle
  refine ⟨body, hj, hasked, fun hexact x hx addr hwoken => ?_⟩
  obtain ⟨-, herror⟩ | ⟨session, posts, hcap, hserved, hposts⟩ := hposted x hx
  · cases hwoken.symm.trans herror
  obtain rfl : session.answer.addr = addr := Except.ok.inj (hserved.woken.symm.trans hwoken)
  apply hserved.holds_iff
  intro text r hmem
  obtain ⟨hstore, hn⟩ := hposts _ (hexact.nodup List.nodup_nil) _ hmem
  rw [← hcap, ← Standing.fits_iff hn (session.answer_mem_running true)]
  exact hstore

/-- With a module that stores what fits, each request of an evaluation finds its own answer just if
falsehood fits the answer block or all replies are usable. -/
theorem Manager.answers_held_iff (m : Module σ) (h : Handler η) (call : Call) (l : Live σ η)
    (hidle : l.evaluating = false) :
    ∃ l' body, ((Manager.ready l).evaluate m (some h) call).2 = .ready l' ∧
      l'.journal = l.journal ++ .occupy :: (body ++ [.release]) ∧
      asked body = (l.exchanges m h call).map (·.request) ∧
      (Exact (.held []) body →
        ((∀ x ∈ l.exchanges m h call, ∀ addr, x.woken = .ok addr →
            ∃ text, x.Holds m l.settings.answerCapacity addr text) ↔
          Settings.minAnswerCapacity ≤ l.settings.answerCapacity ∨
          ∀ x ∈ l.exchanges m h call, ∀ addr, x.woken = .ok addr →
            x.reply.Usable l.settings.answerCapacity)) := by
  obtain ⟨body, hj, hasked, hholds⟩ := l.exchanges_hold_iff m h call hidle
  refine ⟨_, body, rfl, hj, hasked, fun hexact => ?_⟩
  calc (∀ x ∈ l.exchanges m h call, ∀ addr, x.woken = .ok addr →
        ∃ text, x.Holds m l.settings.answerCapacity addr text)
    _ ↔ ∀ x ∈ l.exchanges m h call, ∀ addr, x.woken = .ok addr →
        Settings.minAnswerCapacity ≤ l.settings.answerCapacity ∨
          x.reply.Usable l.settings.answerCapacity := forall₄_congr (hholds hexact)
    _ ↔ _ := by simp only [forall_or_left]

/-- A sandbox that makes two requests, with an answer block of some capacity and a host that has
replies in store. -/
def twoRequestBridge (answerCapacity : Nat) (host : List Reply) :
    Live Sandbox.Machine (List Reply) where
  module.setup := { acts := some [.suspend "a", .suspend "b", .output "1"] }
  settings := { answerCapacity }
  host

/-- In the smallest block that a settings file can ask for, falsehood answers a text that is too
long and a breakdown. -/
theorem Manager.answers_held_iff_least_capacity :
    let l := twoRequestBridge 3 [.answer "long", .aborted]
    l.evaluating = false ∧ ∃ l' body,
      ((Manager.ready l).evaluate Sandbox.interpreter (some scripted) ⟨"s", "", 5⟩).2 = .ready l' ∧
      l'.journal = .occupy :: (body ++ [.release]) ∧ asked body = ["a", "b"] ∧
      Exact (.held []) body ∧
      ∀ x ∈ l.exchanges Sandbox.interpreter scripted ⟨"s", "", 5⟩, ∀ addr, x.woken = .ok addr →
        ∃ text, x.Holds Sandbox.interpreter 3 addr text := by
  intro l
  obtain ⟨l', body, hl', hj, hasked, hiff⟩ := Manager.answers_held_iff Sandbox.interpreter scripted
    ⟨"s", "", 5⟩ l rfl
  have hbody : body = l'.journal.tail.dropLast := between_eq hj
  have hexact : Exact (.held []) body := by
    rw [hbody, ← Manager.ready.inj hl']
    decide +kernel
  have hrequests : (l.exchanges Sandbox.interpreter scripted ⟨"s", "", 5⟩).map (·.request) =
      ["a", "b"] := by decide +kernel
  exact ⟨rfl, l', body, hl', hj, hasked.trans hrequests, hexact,
    (hiff hexact).mpr (.inl (Nat.le_refl 3))⟩

/-- In a smaller block the second request finds the answer to the first. -/
theorem not_answers_held :
    let l := twoRequestBridge 2 [.answer "x", .aborted]
    ∃ body, (l.evaluate Sandbox.interpreter (some (scripted.ask Sandbox.interpreter))
        ⟨"s", "", 5⟩).2.journal = .occupy :: (body ++ [.release]) ∧
      Exact (.held []) body ∧
      ∃ x ∈ l.exchanges Sandbox.interpreter scripted ⟨"s", "", 5⟩, x.request = "b" ∧
        x.woken = .ok ⟨16⟩ ∧ Sandbox.interpreter.read ⟨16⟩ x.found = .ok "x" ∧
        ¬∃ text, x.Holds Sandbox.interpreter 2 ⟨16⟩ text := by
  intro l
  obtain ⟨body, hj, -, hholds⟩ :=
    l.exchanges_hold_iff Sandbox.interpreter scripted ⟨"s", "", 5⟩ rfl
  have hbody : body = (l.evaluate Sandbox.interpreter (some (scripted.ask Sandbox.interpreter))
      ⟨"s", "", 5⟩).2.journal.tail.dropLast := between_eq hj
  have hexact : Exact (.held []) body := by
    rw [hbody]
    decide +kernel
  have hstale : ∃ x ∈ l.exchanges Sandbox.interpreter scripted ⟨"s", "", 5⟩, x.request = "b" ∧
      x.reply = .aborted ∧ x.woken = .ok ⟨16⟩ ∧
      Sandbox.interpreter.read ⟨16⟩ x.found = .ok "x" := by decide +kernel
  obtain ⟨x, hx, hrequest, hreply, hwoken, hread⟩ := hstale
  refine ⟨body, hj, hexact, x, hx, hrequest, hwoken, hread, fun hheld => ?_⟩
  obtain hfits | ⟨_, husable, -⟩ := (hholds hexact x hx ⟨16⟩ hwoken).mp hheld
  · exact absurd hfits (by decide)
  · cases hreply.symm.trans husable

end LispBridge.Bridge
