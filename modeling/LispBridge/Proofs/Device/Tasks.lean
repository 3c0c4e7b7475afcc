import LispBridge.Proofs.Device.Answers

/-!
# Requests put together again

A text has certain words if it is these words with blanks between them (`Text.HasWords`), and a
request consists of them in order. The words of a request put together again, with any blanks
between them, make the same request (`Request.ofText_joined`). The device does so to answer a
`task`, which is therefore answered as by a host that knows nothing: `Shared.requests_rejoined`.
-/

namespace LispBridge

open Chars

variable {s front back : String} {ws gaps : List String}

/-- The text consists of these words, with blanks between them and perhaps at its ends. -/
def Text.HasWords (ws : List String) (s : String) : Prop :=
  ∃ front list back, Blanks front ∧ Spaced (ws.map String.toList) list ∧ Blanks back ∧
    s.toList = front ++ (list ++ back)

namespace Text

theorem map_toList_words (s : String) : (words s).map String.toList = Chars.words s.toList := by
  simp [words, Function.comp_def]

theorem hasWords_words (s : String) : HasWords (words s) s := by
  rw [HasWords, map_toList_words]
  exact exists_spaced s.toList

theorem HasWords.words_eq (h : HasWords ws s) : words s = ws := by
  rw [words, words_eq_iff.mpr h]
  simp [Function.comp_def]

theorem HasWords.isWord (h : HasWords ws s) : ∀ w ∈ ws, IsWord w.toList := by
  obtain ⟨_, _, _, -, hlist, -, -⟩ := h
  exact fun w hw => hlist.isWord _ (List.mem_map_of_mem hw)

end Text

/-- Words with a gap before each but the first one. -/
theorem Chars.Spaced.zipWith {w : List Char} {gaps ws : List (List Char)} (hw : IsWord w)
    (hws : ∀ v ∈ ws, IsWord v) (hlength : gaps.length = ws.length)
    (hgaps : ∀ gap ∈ gaps, gap ≠ [] ∧ Blanks gap) :
    Spaced (w :: ws) (w ++ (List.zipWith (· ++ ·) gaps ws).flatten) := by
  induction ws generalizing w gaps with
  | nil => simpa using Spaced.one hw
  | cons v ws ih =>
    cases gaps with
    | nil => cases hlength
    | cons gap gaps =>
      obtain ⟨hv, hws⟩ := List.forall_mem_cons.mp hws
      obtain ⟨⟨hne, hgap⟩, hgaps⟩ := List.forall_mem_cons.mp hgaps
      rw [List.zipWith_cons_cons, List.flatten_cons, List.append_assoc]
      exact .more hw hne hgap (ih hv hws (Nat.succ.inj hlength) hgaps)

namespace Request

/-- The words of a request put together again, with a gap before each argument. -/
def joined (r : Request) (gaps : List String) : String :=
  r.op ++ String.join (List.zipWith (· ++ ·) gaps r.args)

theorem toList_joined (r : Request) (gaps : List String) : (r.joined gaps).toList =
    r.op.toList ++
      (List.zipWith (· ++ ·) (gaps.map String.toList) (r.args.map String.toList)).flatten := by
  simp [joined, String.toList_join, List.flatMap_def, List.map_zipWith, List.zipWith_map]

theorem ofText_of_hasWords (h : Text.HasWords ws s) : ofText s = ⟨ws.headD "", ws.tail⟩ := by
  rw [ofText_eq, h.words_eq]

theorem hasWords_joined (h : Text.HasWords ws s) (hlength : gaps.length = (ofText s).args.length)
    (hgaps : ∀ gap ∈ gaps, gap ≠ "" ∧ Blanks gap.toList) (hfront : Blanks front.toList)
    (hback : Blanks back.toList) : Text.HasWords ws (front ++ (ofText s).joined gaps ++ back) := by
  refine ⟨front.toList, ((ofText s).joined gaps).toList, back.toList, hfront, ?_, hback, by simp⟩
  rw [ofText_of_hasWords h] at hlength ⊢
  rw [toList_joined]
  cases ws with
  | nil => simpa using Spaced.nil
  | cons op args =>
    obtain ⟨hop, hargs⟩ := List.forall_mem_cons.mp h.isWord
    refine .zipWith hop (by simpa using hargs) (by simpa using hlength) ?_
    simpa using hgaps

/-- The words of a request put together again make the same request. -/
theorem ofText_joined (hlength : gaps.length = (ofText s).args.length)
    (hgaps : ∀ gap ∈ gaps, gap ≠ "" ∧ Blanks gap.toList) (hfront : Blanks front.toList)
    (hback : Blanks back.toList) : ofText (front ++ (ofText s).joined gaps ++ back) = ofText s := by
  have hwords := Text.hasWords_words s
  rw [ofText_of_hasWords (hasWords_joined hwords hlength hgaps hfront hback),
    ofText_of_hasWords hwords]

theorem token?_of_hasWords (h : Text.HasWords ws s) (i : Nat) :
    (ofText s).token? i = if i = 0 then some (ws.headD "") else ws[i]? := by
  rw [ofText_of_hasWords h]
  cases i with
  | zero => rfl
  | succ i => exact List.getElem?_tail

/-! ## Tasks -/

theorem ofText_task (hop : (ofText s).op = "task") :
    ofText ("task " ++ " ".intercalate (ofText s).args) = ofText s := by
  have hlist : ("task " ++ " ".intercalate (ofText s).args).toList =
      "task".toList ++ ' ' :: [' '].intercalate ((ofText s).args.map String.toList) := by
    rw [String.toList_append, String.toList_intercalate]
    rfl
  have hargs : ∀ w ∈ (ofText s).args.map String.toList, IsWord w := by
    simpa using fun w hw => isWord_of_mem_args hw
  have hwords : Text.words ("task " ++ " ".intercalate (ofText s).args) =
      "task" :: (ofText s).args := by
    have htask : words "task".toList = ["task".toList] := by decide
    rw [Text.words, hlist, words_append_blank (by decide), htask, words_intercalate hargs]
    simp [Function.comp_def]
  rw [ofText, hwords, ← hop]

end Request

namespace Device

theorem Shared.answer_task (hop : (Request.ofText s).op = "task") (d : Emulator) :
    ({ device := d } : Shared).answer s = (.ok (minimalAnswer s), { device := d }) := by
  have hminimal :
      minimalAnswer ("task " ++ " ".intercalate (Request.ofText s).args) = minimalAnswer s := by
    rw [minimalAnswer, minimalAnswer, Request.ofText_task hop]
  have happly : d.apply (Request.ofText s) = (.ok (minimalAnswer s), d) := by
    rw [← hminimal, Emulator.apply, Emulator.perform, hop]
    rfl
  rw [Shared.answer, if_neg Bool.false_ne_true, happly]

/-- The words of a request put together again, with any gaps between them and blanks around them,
make the same request, and the word at each index is that of the text. So a device in any state
answers a `task` as a host that knows nothing does, and stays as it is. -/
theorem Shared.requests_rejoined (s : String) :
    (∀ front back gaps, Blanks front.toList → Blanks back.toList →
      gaps.length = (Request.ofText s).args.length →
      (∀ gap ∈ gaps, gap ≠ "" ∧ Blanks gap.toList) →
      Request.ofText (front ++ (Request.ofText s).joined gaps ++ back) = Request.ofText s) ∧
    (∃ ws, Text.HasWords ws s) ∧
    (∀ ws, Text.HasWords ws s → ∀ i, (Request.ofText s).token? i =
      if i = 0 then some (ws.headD "") else ws[i]?) ∧
    ((Request.ofText s).op = "task" → ∀ d : Emulator,
      ({ device := d } : Shared).answer s = (.ok (minimalAnswer s), { device := d })) := by
  refine ⟨fun front back gaps hfront hback hlength hgaps => ?_, ⟨_, Text.hasWords_words s⟩,
    fun ws hws => Request.token?_of_hasWords hws, Shared.answer_task⟩
  exact Request.ofText_joined hlength hgaps hfront hback

/-- A task between blanks of other kinds, whose fourth word is its answer. -/
theorem Shared.requests_rejoined_task :
    let r := Request.ofText "\ttask 0  1\n42"
    r = ⟨"task", ["0", "1", "42"]⟩ ∧
      Request.ofText (" " ++ r.joined ["\n", "  ", " "] ++ "") = r ∧
      r.token? 3 = some "42" ∧
      ∃ answer, answer = "42" ∧ ({} : Shared).answer "\ttask 0  1\n42" = (.ok answer, {}) := by
  intro r
  have hr : r = ⟨"task", ["0", "1", "42"]⟩ := by decide
  obtain ⟨hjoined, -, htoken, htask⟩ := Shared.requests_rejoined "\ttask 0  1\n42"
  have hwords : Text.HasWords ["task", "0", "1", "42"] "\ttask 0  1\n42" :=
    Text.hasWords_words "\ttask 0  1\n42"
  have hanswer : minimalAnswer "\ttask 0  1\n42" = "42" := by decide
  refine ⟨hr, hjoined " " "" _ (by decide) (by decide) (by decide) (by decide), htoken _ hwords 3,
    _, hanswer, htask (by decide) {}⟩

end Device

end LispBridge
