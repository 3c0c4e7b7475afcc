import LispBridge.Proofs.Bridge.Stages
import LispBridge.Proofs.Library.Wire
import LispBridge.Proofs.Value.PlainText

/-!
# The library of an evaluation

The library that a script runs with is plain text, whatever the script holds
(`Library.plain_buildLibrary`). So the bridge hands it to the module, in a block that it fits
(`Session.acquire_offers`), and a stage that stores it can fail only by the module's own refusal of
such a text (`Live.offered_of_stage`). A module with the contract of `TextStore` reads the library
in full when it is entered, and can take the entries from it one by one
(`Manager.library_read_back`).
-/

namespace LispBridge.Library

theorem plainChar_of_isIdentChar {c : Char} (h : isIdentChar c = true) : PlainChar c := by
  have hn := toNat_of_isIdentChar h
  refine ⟨by omega, ?_⟩
  rintro rfl
  cases h

theorem plain_buildLibrary (source : String) : Text.Plain (buildLibrary source) := by
  intro c hc
  obtain hc | rfl | rfl | rfl := mem_renderWire (fun _ => wellFormed_of_mem_fullLibrary) hc
  · exact plainChar_of_isIdentChar hc
  all_goals decide

end LispBridge.Library

namespace LispBridge.Bridge

variable {σ η : Type} {m : Module σ}

/-! ## Texts that are offered -/

/-- An ASCII text that fits the block is offered to the module, which answers with this result. -/
def TextStore.Offered (store : TextStore m) (a : Addr) (text : String)
    (r : Except ModuleError Unit) : Prop :=
  isAscii text = true ∧ ∃ s, text.utf8ByteSize + 1 ≤ (store.block s a).length ∧
    (m.write a text s).1 = r

/-- The error says that a block cannot hold a text. -/
def ModuleError.isUnfit : ModuleError → Bool
  | .overflow .. | .notAscii => true
  | _ => false

end LispBridge.Bridge

namespace LispBridge.Sandbox

open Bridge

/-- The sandbox refuses no text that fits because of its length or characters. -/
theorem isUnfit_eq_false_of_offered {a : Addr} {text : String} {e : ModuleError}
    (h : textStore.Offered a text (.error e)) : e.isUnfit = false := by
  obtain ⟨-, s, hfit, herror⟩ := h
  change text.utf8ByteSize + 1 ≤ (s.memory.bytes a).length at hfit
  change (s.write a text).1 = .error e at herror
  by_cases hfail : s.writes ∈ s.setup.failWrites
  · have hbad : (s.write a text).1 = .error (.badAddress a) := by simp [Machine.write, hfail]
    cases herror.symm.trans hbad
    rfl
  cases hget : s.memory.blocks.get? a with
  | none =>
    have hbad : (s.write a text).1 = .error (.badAddress a) := by
      simp [Machine.write, Memory.write, hfail, hget]
    cases herror.symm.trans hbad
    rfl
  | some b =>
    rw [Memory.bytes, hget, Option.elim_some, b.length_bytes] at hfit
    have hok : (s.write a text).1 = .ok () := by
      simp [Machine.write, Memory.write, hfail, hget, Nat.not_lt.mpr hfit]
    cases herror.symm.trans hok

end LispBridge.Sandbox

namespace LispBridge.Bridge

variable {σ η : Type} {m : Module σ}

/-- Since the journal was `j`, no other texts have been offered. -/
def Offers (store : TextStore m) (j : List Event) (t : Traced σ) : Prop :=
  ∃ ev, t.journal = j ++ ev ∧ ∀ a text r, .write a text r ∈ ev → store.Offered a text r

namespace Offers

variable {store : TextStore m} {j : List Event} {t t' : Traced σ} {text : String}

theorem refl (t : Traced σ) : Offers store t.journal t :=
  ⟨[], (List.append_nil _).symm, nofun⟩

theorem step {e : Event} (h : Offers store j t) (hj : t'.journal = t.journal ++ [e])
    (he : ∀ a text r, e = .write a text r → store.Offered a text r) : Offers store j t' := by
  obtain ⟨ev, hev, hoffered⟩ := h
  refine ⟨ev ++ [e], by rw [hj, hev, List.append_assoc], fun a text r hmem => ?_⟩
  obtain hmem | hmem := List.mem_append.mp hmem
  · exact hoffered a text r hmem
  · exact he a text r (List.mem_singleton.mp hmem).symm

theorem free (h : Offers store j t) (b : Buffer) : Offers store j (b.free m t) :=
  h.step rfl nofun

theorem alloc {size : Nat} {r : Except ModuleError Buffer} (h : Offers store j t)
    (hr : Buffer.alloc m size t = (r, t')) : Offers store j t' := by
  have hstep : Offers store j (t.alloc m size).2 := h.step rfl nofun
  unfold Buffer.alloc at hr
  rcases ht : t.alloc m size with ⟨_ | addr, t₁⟩ <;> rw [ht] at hr hstep <;> cases hr <;>
    exact hstep

theorem write {b : Buffer} {r : Except ModuleError Unit} (h : Offers store j t)
    (hlen : (store.block t.module b.addr).length = b.capacity) (hr : b.write m text t = (r, t')) :
    Offers store j t' := by
  unfold Buffer.write at hr
  cases hrefusal : b.refusal? text with
  | some e =>
    rw [hrefusal] at hr
    cases hr
    exact h
  | none =>
    rw [hrefusal] at hr
    cases hr
    obtain ⟨hascii, hfit⟩ := Buffer.refusal?_eq_none_iff.mp hrefusal
    refine h.step rfl fun a text' r' heq => ?_
    obtain ⟨rfl, rfl, rfl⟩ := Event.write.inj heq
    exact ⟨hascii, t.module, hlen ▸ hfit, rfl⟩

theorem ofText {r : Except ModuleError Buffer} (h : Offers store j t)
    (hr : Buffer.ofText m text t = (r, t')) : Offers store j t' := by
  cases r with
  | ok b =>
    obtain ⟨t₁, ha, hw⟩ := Buffer.ofText_eq_ok hr
    exact (h.alloc ha).write (store.buffer_alloc ha).1 hw
  | error e =>
    obtain ha | ⟨b, t₁, t₂, ha, hw, rfl⟩ := Buffer.ofText_eq_error hr
    · exact h.alloc ha
    · exact ((h.alloc ha).write (store.buffer_alloc ha).1 hw).free b

end Offers

theorem Session.acquire_offers (store : TextStore m) {s : Settings} {call : Call}
    {t t' : Traced σ} {r : Except ModuleError Session} (hr : acquire m s call t = (r, t')) :
    Offers store t.journal t' := by
  have h : Offers store t.journal t := .refl t
  cases acquired_of_acquire hr with
  | noAnswer ha => exact h.alloc ha
  | noOutput ha ho => exact ((h.alloc ha).alloc ho).free _
  | noInput ha ho hi => exact ((((h.alloc ha).alloc ho).ofText hi).free _).free _
  | noLibrary ha ho hi hl =>
    exact ((((((h.alloc ha).alloc ho).ofText hi).ofText hl).free _).free _).free _
  | all ha ho hi hl => exact (((h.alloc ha).alloc ho).ofText hi).ofText hl

/-! ## Stages that fail -/

section
variable {stages : List Stage} {ev : List Event} {a : Addr} {text : String}

/-- As long as the module is not entered, ASCII texts are stored just by the stages that do so. -/
theorem Shown.mem_write_iff {r : Except ModuleError Unit} (h : Shown stages ev)
    (hentered : entered ev = []) (hascii : isAscii text = true) :
    .write a text r ∈ ev ↔ .store a text r ∈ stages := by
  induction h with
  | nil => exact iff_of_false List.not_mem_nil List.not_mem_nil
  | @cons stage stages seg ev hs _ ih =>
    rw [entered_append, List.append_eq_nil_iff] at hentered
    rw [List.mem_append, List.mem_cons, ih hentered.2]
    refine or_congr_left ?_
    cases hs with
    | stored => simp
    | refused hnot =>
      refine iff_of_false List.not_mem_nil ?_
      rintro ⟨⟩
      rw [hascii] at hnot
      cases hnot
    | evaluate => exact absurd hentered.1 (List.cons_ne_nil _ _)
    | alloc | read | parse => simp

/-- The module is not entered after a store that failed. -/
theorem Attempted.args_eq_nil {s : Settings} {call : Call} {verdict : Except BridgeError Json}
    {e : ModuleError} (h : Attempted s call stages verdict)
    (hmem : .store a text (.error e) ∈ stages) : stages.filterMap Stage.args? = [] := by
  cases h with
  | succeeded => simp [agenda, preparation] at hmem
  | failed h =>
    obtain hearly | ⟨closing, rfl, hlate⟩ := h.append_cases
    · obtain hf | hf | hf | hf | hf | hf | hf := hearly <;> cases hf <;> rfl
    · obtain hf | hf | hf | hf := hlate <;> cases hf <;> simp [preparation] at hmem

/-- An ASCII text that is not stored was refused by the module, though it fits its block. -/
theorem Live.offered_of_stage (store : TextStore m) (handler : Option (Handler η)) {call : Call}
    {l : Live σ η} {body : List Event} {verdict : Except BridgeError Json} {e : ModuleError}
    (hidle : l.evaluating = false) (hattempted : Attempted l.settings call stages verdict)
    (hj : (l.evaluate m (handler.map (Handler.ask m)) call).2.journal =
      l.journal ++ .occupy :: (body ++ [.release]))
    (hshown : Shown stages (calls body)) (hascii : isAscii text = true)
    (hmem : .store a text (.error e) ∈ stages) : store.Offered a text (.error e) := by
  have hentered : Bridge.entered (calls body) = [] := by
    rw [hshown.entered_allocated.1, hattempted.args_eq_nil hmem]
  have hwrite : .write a text (.error e) ∈ body :=
    List.mem_of_mem_filter ((hshown.mem_write_iff hentered hascii).mpr hmem)
  rw [entered_calls] at hentered
  obtain ⟨-, -, body', hj', hproc⟩ := l.evaluate_proceedings m handler call hidle
  have hbody : body' = body := by simpa using hj'.symm.trans hj
  subst hbody
  generalize Ending.reason _ = broken at hproc
  cases hproc with
  | @refused e' t _ _ hacq =>
    obtain ⟨ev, hev, hoffered⟩ := Session.acquire_offers store hacq
    have hleft : (l.evaluate m (handler.map (Handler.ask m)) call).2.journal =
        t.journal ++ [.release] := by rw [evaluate_of_refused _ hidle hacq]; rfl
    rw [hj, hev] at hleft
    have hbody : body' = ev := by simpa [occupy, log, withTraced, Traced.record] using hleft
    exact hoffered a text _ (hbody ▸ hwrite)
  | held => simp [Bridge.entered, Event.entered?] at hentered

end

/-! ## The library of a session -/

/-- The library block holds the library when the evaluation is entered: it is filled last, so that
this goes for blocks that overlap, too. -/
theorem Session.holds_library (store : TextStore m) {settings : Settings} {call : Call}
    {t t' : Traced σ} {session : Session}
    (h : Session.acquire m settings call t = (.ok session, t')) (handled : Bool) :
    store.Holds (m.setCallback handled t'.module) session.library.addr call.library := by
  obtain ⟨⟩ | ⟨⟩ | ⟨⟩ | ⟨⟩ | ⟨-, -, -, hl⟩ := acquired_of_acquire h
  obtain ⟨t₁, halloc, hwrite⟩ := Buffer.ofText_eq_ok hl
  obtain ⟨-, ⟨rest, hholds⟩, -⟩ := store.buffer_write hwrite (store.buffer_alloc halloc).1
  exact ⟨rest, (congrFun store.setCallback _).trans hholds⟩

theorem Manager.reason_execute (handler : Option (Handler η)) (script : String)
    (taskLimit : Option Nat) (l : Live σ η) :
    ((Manager.ready l).execute m handler script taskLimit).1.reason =
      (l.evaluate m (handler.map (Handler.ask m))
        (.ofScript l.settings script taskLimit)).1.reason :=
  Ending.reason_map ..

/-- The library of a script consists of the characters of identifiers, brackets and blanks. Taken
apart from the left it gives the predefined entries and those of the script; other well-formed
entries make another library. When a script is executed and the library cannot be stored, the module
has refused a text that it has room for; a module that does not call such a text too long or not
ASCII fails in neither way because of the library. The module is entered with the library in full. -/
theorem Manager.library_read_back (m : Module σ) (store : TextStore m) :
    (∀ source : String,
      (∀ c ∈ (Library.buildLibrary source).toList,
        Library.isIdentChar c = true ∨ c = '(' ∨ c = ')' ∨ c = ' ') ∧
      ∀ es, Library.Successive (Library.buildLibrary source).toList es ↔
        es = Library.predefined ++ Library.parseBlock source) ∧
    (∀ es es' : List Library.Entry, (∀ e ∈ es, e.WellFormed) → (∀ e ∈ es', e.WellFormed) →
      Library.renderWire es = Library.renderWire es' → es = es') ∧
    ∀ (handler : Option (Handler η)) (script : String) (taskLimit : Option Nat) (l : Live σ η),
      l.evaluating = false → ∃ l' stages verdict body,
        let call := Call.ofScript l.settings script taskLimit
        let library := Library.buildLibrary script
        let r := (Manager.ready l).execute m handler script taskLimit
        Attempted l.settings call stages verdict ∧
        r.2 = .ready l' ∧ l'.journal = l.journal ++ .occupy :: (body ++ [.release]) ∧
        Shown stages (calls body) ∧
        (r.1.reason = none → r.1 = .returned (.ofEvaluation (verdict.map some))) ∧
        (∀ a e, .store a library (.error e) ∈ stages → store.Offered a library (.error e)) ∧
        ((∀ a text e, store.Offered a text (.error e) → e.isUnfit = false) →
          ∀ a e, .store a library (.error e) ∈ stages → e.isUnfit = false) ∧
        ∀ args, .enter args ∈ body →
          ∃ (session : Session) (t : Traced σ),
            Session.acquire m l.settings call l.occupy.toTraced = (.ok session, t) ∧
            args = session.args l.settings call ∧
            m.read args.library (m.setCallback handler.isSome t.module) = .ok library := by
  refine ⟨fun source => ?_, fun es es' => Library.renderWire_inj, ?_⟩
  · have hes : ∀ e ∈ Library.fullLibrary source, e.WellFormed :=
      fun _ => Library.wellFormed_of_mem_fullLibrary
    have hsuccessive := Library.successive_renderWire hes
    refine ⟨fun c => Library.mem_renderWire hes, fun es => ⟨fun h => h.unique hsuccessive, ?_⟩⟩
    rintro rfl
    exact hsuccessive
  intro handler script taskLimit l hidle
  let call := Call.ofScript l.settings script taskLimit
  let library := Library.buildLibrary script
  obtain ⟨hascii, hnul⟩ := Text.plain_iff.mp (Library.plain_buildLibrary script)
  obtain ⟨stages, verdict, body, hattempted, hj, hshown, hreturned⟩ :=
    @Live.evaluate_stages _ _ m call l handler hidle
  have hoffered : ∀ a e, .store a library (.error e) ∈ stages →
      store.Offered a library (.error e) := fun a e hmem =>
    l.offered_of_stage store handler hidle hattempted hj hshown hascii hmem
  refine ⟨_, stages, verdict, body, hattempted, rfl, hj, hshown, fun hreason => ?_, hoffered,
    fun hstores a e hmem => hstores a library e (hoffered a e hmem), fun args hmem => ?_⟩
  · have hr := hreturned ((reason_execute ..).symm.trans hreason)
    exact congrArg (Ending.map ExecutionResult.ofEvaluation) hr
  · obtain ⟨-, -, body', hj', hproc⟩ := l.evaluate_proceedings m handler call hidle
    have hbody : body' = body := by simpa using hj'.symm.trans hj
    subst hbody
    obtain ⟨session, t, -, -, -, hacq, hargs, -, -, -⟩ := hproc.enter_cases hmem
    have hholds : store.Holds _ session.library.addr library :=
      Session.holds_library store hacq handler.isSome
    have haddr : args.library = session.library.addr := congrArg EvalArgs.library hargs
    refine ⟨session, t, hacq, hargs, ?_⟩
    rw [haddr]
    exact hholds.read_eq_self_iff.mpr hnul

/-- Of three declarations in a line one is read, whatever stands around it. The library is read in
full, and where its store fails, that is not because it does not fit. -/
theorem Manager.library_read_back_controls :
    let m := Sandbox.interpreter
    let script := ";begin-user-library\n\x01(defjs (defjs f(\tx ))(defjs g ())\n(defjs f (x))\n" ++
      ";end-user-library"
    let own : List Library.Entry := [⟨"f", ["x"]⟩, ⟨"f", ["x"]⟩]
    let library := Library.buildLibrary script
    let call := Call.ofScript {} script none
    let l (failWrites : List Nat) : Live Sandbox.Machine Unit :=
      { module := { setup := { failWrites, acts := some [] } }, host := () }
    library = Library.renderWire (Library.predefined ++ own) ∧
    Library.Successive library.toList (Library.predefined ++ own) ∧
    (∀ es, (∀ e ∈ es, e.WellFormed) → Library.renderWire es = Library.renderWire own → es = own) ∧
    (∃ session t, Session.acquire m {} call (l []).occupy.toTraced = (.ok session, t) ∧
      m.read session.library.addr (m.setCallback false t.module) = .ok library) ∧
    ∃ stages verdict a e, Attempted {} call stages verdict ∧ .store a library (.error e) ∈ stages ∧
      ((Manager.ready (l [1])).execute m none script none).1 =
        .returned (.ofEvaluation (verdict.map some)) ∧
      Sandbox.textStore.Offered a library (.error e) ∧ e.isUnfit = false := by
  intro m script own library call l
  obtain ⟨hdecode, hinj, hexecute⟩ := Manager.library_read_back (η := Unit) m Sandbox.textStore
  have hown : Library.parseBlock script = own := by decide +kernel
  have hlibrary : library = Library.renderWire (Library.predefined ++ own) :=
    congrArg (fun es => Library.renderWire (Library.predefined ++ es)) hown
  let body (failWrites : List Nat) : List Event :=
    ((l failWrites).evaluate m none call).2.journal.tail.dropLast
  let addr : Addr := ⟨10485975⟩
  have hbodies : .enter ⟨10000, addr, ⟨10485872⟩, ⟨96⟩, 9999⟩ ∈ body [] ∧
      .write addr library (.error (.badAddress addr)) ∈ calls (body [1]) ∧
      entered (calls (body [1])) = [] := by decide +kernel
  obtain ⟨henter, hwrite, hentered⟩ := hbodies
  have hsuccessive : Library.Successive library.toList (Library.predefined ++ own) :=
    ((hdecode script).2 _).mpr (congrArg (Library.predefined ++ ·) hown.symm)
  have hwellFormed : ∀ e ∈ own, e.WellFormed := by decide
  refine ⟨hlibrary, hsuccessive, fun es hes => hinj es own hes hwellFormed, ?_, ?_⟩
  · obtain ⟨l', -, -, body, -, hl', hj, -, -, -, -, hread⟩ := hexecute none script none (l []) rfl
    have hafter : ((l []).evaluate m none call).2 = l' := Manager.ready.inj hl'
    rw [between_eq hj, ← hafter] at hread
    obtain ⟨session, t, hacq, hargs, hfull⟩ := hread _ henter
    rw [hargs] at hfull
    exact ⟨session, t, hacq, hfull⟩
  · obtain ⟨l', stages, verdict, body, hattempted, hl', hj, hshown, hreturned, hoffered, hfits,
      -⟩ := hexecute none script none (l [1]) rfl
    have hafter : ((l [1]).evaluate m none call).2 = l' := Manager.ready.inj hl'
    rw [between_eq hj, ← hafter] at hshown
    have hascii := (Text.plain_iff.mp (Library.plain_buildLibrary script)).1
    have hstage := (hshown.mem_write_iff hentered hascii).mp hwrite
    obtain ⟨-, -, _, -, hproc⟩ := (l [1]).evaluate_proceedings m none call rfl
    exact ⟨stages, verdict, _, _, hattempted, hstage,
      hreturned ((reason_execute none script none (l [1])).trans hproc.broken_eq_none),
      hoffered _ _ hstage,
      hfits (fun _ _ _ => Sandbox.isUnfit_eq_false_of_offered) _ _ hstage⟩

end LispBridge.Bridge
