import LispBridge.Proofs.Device.EventQueues
import LispBridge.Proofs.Device.PinHistory
import LispBridge.Proofs.Value.NormalForm

/-!
# Answers as arguments

A device that only requests have changed keeps values that words decode to (`Emulator.OfWords`), so
that all its answers are words and decode to what was stored or taken: `Shared.answers_are_words`.
A word that is added to a request becomes its last argument, or its operation if the request has
none yet (`Request.ofText_append_word`, `Shared.not_argument_of_blank`).
-/

namespace LispBridge

open Chars

/-! ## Words that are added to a request -/

namespace Request

variable {request gap word : String}

theorem ofText_eq (request : String) : ofText request =
    { op := (Text.words request).headD "", args := (Text.words request).tail } := by
  unfold ofText
  cases Text.words request <;> rfl

theorem isWord_of_mem_args (h : word ∈ (ofText request).args) : IsWord word.toList := by
  rw [ofText_eq] at h
  obtain ⟨w, hw, rfl⟩ := List.mem_map.mp (List.mem_of_mem_tail h)
  rw [String.toList_ofList]
  exact isWord_of_mem_words hw

theorem words_append_word (hne : gap ≠ "") (hgap : Blanks gap.toList) (hword : IsWord word.toList) :
    Text.words (request ++ gap ++ word) = Text.words request ++ [word] := by
  have hne : gap.toList ≠ [] := by simpa using hne
  simp only [Text.words, String.toList_append, List.append_assoc,
    Chars.words_append_word hne hgap hword, List.map_append, List.map_singleton,
    String.ofList_toList]

/-- A word after a request that has an operation is one more argument. -/
theorem ofText_append_word (hop : ¬Blanks request.toList) (hne : gap ≠ "")
    (hgap : Blanks gap.toList) (hword : IsWord word.toList) : ofText (request ++ gap ++ word) =
      { ofText request with args := (ofText request).args ++ [word] } := by
  have hwords : Text.words request ≠ [] := by simpa [Text.words, words_eq_nil_iff] using hop
  obtain ⟨op, args, hcons⟩ := List.exists_cons_of_ne_nil hwords
  rw [ofText_eq, ofText_eq, words_append_word hne hgap hword, hcons]
  rfl

theorem ofText_append_word_of_blanks (hblank : Blanks request.toList) (hne : gap ≠ "")
    (hgap : Blanks gap.toList) (hword : IsWord word.toList) :
    ofText (request ++ gap ++ word) = ⟨word, []⟩ := by
  have hwords : Text.words request = [] := by simpa [Text.words, words_eq_nil_iff] using hblank
  rw [ofText_eq, words_append_word hne hgap hword, hwords]
  rfl

end Request

theorem isWord_falseText : IsWord falseText.toList := by decide

theorem isWord_trueText : IsWord trueText.toList := by decide

theorem isWord_minimalAnswer (request : String) : IsWord (minimalAnswer request).toList := by
  rw [minimalAnswer]
  simp only [Request.token?]
  split
  · cases harg : (Request.ofText request).args[2]? with
    | none => exact isWord_falseText
    | some word => exact Request.isWord_of_mem_args (List.mem_of_getElem? harg)
  · exact isWord_falseText

/-! ## Values that words decode to -/

theorem Binary64.isWord_wireText {x : Binary64} (h : x.isFinite = true) :
    IsWord x.wireText.toList := by
  refine ⟨fun hnil => ?_, fun c hc => NumberText.isBlank_of_isMark (x.isMark_wireText h c hc)⟩
  have hread := parseNumber_wireText h
  rw [parseNumber, hnil] at hread
  cases hread

namespace HostValue

variable {v : HostValue}

/-- Some word decodes to the value. -/
def OfWord (v : HostValue) : Prop := ∃ word : String, IsWord word.toList ∧ ofWire word = v

theorem ofWord_bool (b : Bool) : OfWord (.bool b) := by
  cases b
  · exact ⟨falseText, isWord_falseText, rfl⟩
  · exact ⟨trueText, isWord_trueText, rfl⟩

theorem OfWord.isWord_wire (h : v.OfWord) : IsWord v.wire.toList := by
  obtain ⟨word, hword, rfl⟩ := h
  cases hread : parseNumber word with
  | none => rwa [wire_ofWire_of_parseNumber hread]
  | some x =>
    -- a truth value reads as no number
    cases htruth : truthOfWire? word with
    | some b => rw [parseNumber_of_truthOfWire? htruth] at hread; cases hread
    | none =>
      have hnumber : ofWire word = .number x := by simp only [ofWire, htruth, hread]
      rw [hnumber]
      exact Binary64.isWord_wireText (NumberText.isFinite_of_read? hread)

theorem OfWord.agrees_wire (h : v.OfWord) : (ofWire v.wire).Agrees v := by
  obtain ⟨word, -, rfl⟩ := h
  rw [ofWire_wire (finite_ofWire word), meant_ofWire]
  exact agrees_dropZeroSign (finite_ofWire word)

end HostValue

namespace Device

open HostValue

theorem PinKind.ofWord_initial (kind : PinKind) : kind.initial.OfWord := by
  have hzero : OfWord (.number (.ofCode false 0)) := ⟨"0", by decide, by decide +kernel⟩
  cases kind with
  | analogOut | analogIn => exact hzero
  | digitalOut | digitalIn | button => exact ofWord_bool false

theorem PinKind.operation_inj {kind kind' : PinKind} (h : kind.operation = kind'.operation) :
    kind = kind' := by
  cases kind <;> cases kind' <;> first | rfl | exact absurd h (by decide)

theorem Reaches.unique {counts : PinCounts} {r : Request} {kind kind' : PinKind} {n n' : Nat}
    (h : Reaches counts r kind n) (h' : Reaches counts r kind' n') : kind = kind' ∧ n = n' := by
  obtain ⟨hop, raw, hraw, hn, -⟩ := h
  obtain ⟨hop', raw', hraw', hn', -⟩ := h'
  cases hraw.symm.trans hraw'
  cases hn.symm.trans hn'
  exact ⟨PinKind.operation_inj (hop.symm.trans hop'), rfl⟩

namespace Emulator

variable {d d' : Emulator} {r : Request} {kind : PinKind} {n : Nat} {request answer : String}

/-- What the device keeps are values that words decode to. -/
structure OfWords (d : Emulator) : Prop where
  pin : ∀ kind n, (d.pin kind n).OfWord
  queue : ∀ event, ∀ v ∈ d.queue event, v.OfWord

namespace OfWords

theorem start (counts : PinCounts) : OfWords { counts } :=
  ⟨fun kind _ => kind.ofWord_initial, nofun⟩

theorem act (h : d.OfWords) (request : String) :
    (d.act (.request (.ofText request))).OfWords := by
  have hargs : ∀ {i word}, (Request.ofText request).args[i]? = some word → (ofWire word).OfWord :=
    fun hword => ⟨_, Request.isWord_of_mem_args (List.mem_of_getElem? hword), rfl⟩
  refine ⟨forall_pin_act PinKind.ofWord_initial h.pin fun kind n v hstores => ?_,
    forall_queue_act h.queue fun event v hpushes => ?_⟩
  · cases hstores with
    | digitalWrite => exact ofWord_bool _
    | analogWrite _ hs hx => exact hx ▸ hargs hs
  · cases hpushes with
    | request _ _ hs => exact hargs hs

theorem serve (h : d.OfWords) (requests : List String) : (d.serve requests).OfWords := by
  induction requests generalizing d with
  | nil => exact h
  | cons request requests ih => exact ih (h.act request)

/-- Every answer is a word. -/
theorem isWord_answer (h : d.OfWords) (hserved : d.Served (.ofText request) answer d') :
    IsWord answer.toList := by
  cases hserved with
  | digitalWrite | takeClick | hasEvent => exact (ofWord_bool _).isWord_wire
  | analogWrite _ hs hx =>
    have hword := Request.isWord_of_mem_args (List.mem_of_getElem? hs)
    exact OfWord.isWord_wire ⟨_, hword, hx⟩
  | read => exact (h.pin _ _).isWord_wire
  | enqueue => exact isWord_trueText
  | dequeueNil | unknown => exact isWord_falseText
  | dequeueCons _ _ hq => exact (h.queue _ _ (hq ▸ List.mem_cons_self)).isWord_wire
  | task => exact isWord_minimalAnswer _

end OfWords

/-- An output is answered with what it holds then. -/
theorem Served.answer_eq_wire_pin (h : d.Served r answer d')
    (hkind : kind = .digitalOut ∨ kind = .analogOut) (hr : Reaches d.counts r kind n) :
    answer = (d'.pin kind n).wire := by
  have hop : r.op = kind.operation := hr.1
  cases h with
  | digitalWrite hr' | analogWrite hr' =>
    obtain ⟨rfl, rfl⟩ := hr.unique hr'
    rw [pin_setPin, if_pos rfl]
  | read hinput hr' =>
    obtain ⟨rfl, -⟩ := hr.unique hr'
    obtain rfl | rfl := hkind <;> simp at hinput
  | takeClick hr' =>
    obtain ⟨rfl, -⟩ := hr.unique hr'
    simp at hkind
  | enqueue hop' | hasEvent hop' | dequeueNil hop' | dequeueCons hop' | task hop' =>
    obtain rfl | rfl := hkind <;> exact absurd (hop.symm.trans hop') (by decide)
  | unknown hop' =>
    rw [hop] at hop'
    obtain rfl | rfl := hkind <;> exact absurd hop' (by decide)

end Emulator

/-! ## A device that only requests change -/

namespace Shared

variable {counts : PinCounts} {requests : List String} {request answer : String}

def serve (s : Shared) (requests : List String) : Shared :=
  requests.foldl (fun s request => (s.answer request).2) s

theorem serve_eq (d : Emulator) (requests : List String) :
    serve { device := d } requests = { device := d.serve requests } := by
  induction requests generalizing d with
  | nil => rfl
  | cons request requests ih => exact ih (d.serve [request])

/-- The answers of a device that only requests have changed are words, so that each can be added to
a request as its last argument, if the request has an operation; one that has none gets the word for
its operation. What is written to an output or taken from a queue can be read off its answer. -/
theorem answers_are_words
    (h : ((serve { device := { counts } } requests).answer request).1 = .ok answer) :
    let s := serve { device := { counts } } requests
    let s' := (s.answer request).2
    IsWord answer.toList ∧
    (∀ earlier gap : String, gap ≠ "" → Blanks gap.toList →
      (¬Blanks earlier.toList → Request.ofText (earlier ++ gap ++ answer) =
        { Request.ofText earlier with args := (Request.ofText earlier).args ++ [answer] }) ∧
      (Blanks earlier.toList → Request.ofText (earlier ++ gap ++ answer) = ⟨answer, []⟩)) ∧
    (∀ n, Reaches counts (.ofText request) .digitalOut n →
      (ofWire answer).Agrees (s'.device.pin .digitalOut n)) ∧
    (∀ n, Reaches counts (.ofText request) .analogOut n →
      (ofWire answer).Agrees (s'.device.pin .analogOut n)) ∧
    ∀ event v rest, (Action.request (.ofText request)).Pops event →
      s.device.queue event = v :: rest → (ofWire answer).Agrees v := by
  intro s s'
  have hs : s = { device := Emulator.serve { counts } requests } := serve_eq ..
  have hwords := (Emulator.OfWords.start counts).serve requests
  have hcounts : (Emulator.serve { counts } requests).counts = counts := Emulator.counts_run
  generalize Emulator.serve { counts } requests = d at hs hwords hcounts
  have hok : (d.apply (.ofText request)).1 = .ok answer := by
    change (s.answer request).1 = _ at h
    rwa [hs] at h
  have hs' : s'.device = d.serve [request] := by simp only [s', hs]; rfl
  have hserved : d.Served (.ofText request) answer (d.serve [request]) :=
    (d.serves_perform _).served answer hok
  have hword := hwords.isWord_answer hserved
  have houtput : ∀ kind n, kind = .digitalOut ∨ kind = .analogOut →
      Reaches counts (.ofText request) kind n → (ofWire answer).Agrees (s'.device.pin kind n) := by
    intro kind n hkind hr
    rw [hs', hserved.answer_eq_wire_pin hkind (hcounts ▸ hr)]
    exact ((hwords.serve [request]).pin kind n).agrees_wire
  refine ⟨hword, fun earlier gap hne hgap => ⟨?_, ?_⟩, fun n => houtput _ n (.inl rfl),
    fun n => houtput _ n (.inr rfl), fun event v rest hpops hq => ?_⟩
  · exact fun hop => Request.ofText_append_word hop hne hgap hword
  · exact fun hblank => Request.ofText_append_word_of_blanks hblank hne hgap hword
  · rw [hs] at hq
    obtain ⟨hop, he⟩ := hpops
    rw [Emulator.apply_dequeue_cons hop he hq] at hok
    rw [← Except.ok.inj hok]
    exact (hwords.queue event v (hq ▸ List.mem_cons_self)).agrees_wire

/-- A number that was added to a queue by a literal in base sixteen, behind another value. -/
theorem answers_are_words_sixteen :
    let s := serve {} ["push_event e hot", "push_event e 0x10", "pop_event e"]
    ∃ answer, answer = "16" ∧ (s.answer "pop_event e").1 = .ok answer ∧
      Request.ofText ("awrite 1" ++ " " ++ answer) = ⟨"awrite", ["1", answer]⟩ ∧
      (ofWire answer).Agrees (ofWire "0x10") := by
  intro s
  obtain ⟨answer, heq, hanswer⟩ : ∃ answer, answer = "16" ∧
      (s.answer "pop_event e").1 = .ok answer := ⟨"16", rfl, by decide +kernel⟩
  obtain ⟨-, hargument, -, -, hpopped⟩ := answers_are_words hanswer
  have hpops : (Action.request (.ofText "pop_event e")).Pops "e" :=
    .request (by decide) (by decide)
  have hqueue : s.device.queue "e" = [ofWire "0x10"] := by decide +kernel
  have hawrite := (hargument "awrite 1" " " (by decide) (by decide)).1 (by decide)
  have hone : Request.ofText "awrite 1" = ⟨"awrite", ["1"]⟩ := by decide
  rw [hone] at hawrite
  exact ⟨answer, heq, hanswer, hawrite, hpopped "e" _ [] hpops hqueue⟩

/-- An answer that is added to a request without an operation is no argument. -/
theorem not_argument_of_blank : ¬∀ (requests : List String) (request answer earlier : String),
    ((serve {} requests).answer request).1 = .ok answer →
    Request.ofText (earlier ++ " " ++ answer) =
      { Request.ofText earlier with args := (Request.ofText earlier).args ++ [answer] } := by
  intro h
  have hanswer : ((serve {} []).answer "task").1 = .ok "()" := by decide +kernel
  exact absurd (h [] "task" "()" "" hanswer) (by decide)

end Shared

end Device

end LispBridge
