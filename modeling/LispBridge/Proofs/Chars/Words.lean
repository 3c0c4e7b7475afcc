import LispBridge.Chars.Blank
import LispBridge.Proofs.Chars.Lines
import Mathlib.Data.List.TakeWhile

/-!
# Words and the blanks around them

The words of a text are put together again by blanks between them (`Spaced`), and blanks at the two
ends make no difference (`words_eq_iff`). What `trim` removes are those ends, and it leaves a text
as it is that neither starts nor ends with a blank (`trim_append`).
-/

namespace LispBridge.Chars

variable {cs gap front back w : List Char} {ws : List (List Char)} {c : Char}

/-- Blanks, perhaps none. -/
def Blanks (cs : List Char) : Prop := ∀ c ∈ cs, isBlank c = true

/-- A word: at least one character, and no blank. -/
def IsWord (w : List Char) : Prop := w ≠ [] ∧ ∀ c ∈ w, isBlank c = false

instance (cs : List Char) : Decidable (Blanks cs) := List.decidableBAll _ cs

instance (w : List Char) : Decidable (IsWord w) :=
  @instDecidableAnd _ _ (inferInstanceAs (Decidable (w ≠ []))) (List.decidableBAll _ w)

theorem IsWord.isBlank_head (h : IsWord w) : ∀ c ∈ (w ++ cs).head?, isBlank c = false := by
  intro c hc
  rw [List.head?_append, List.head?_eq_some_head h.1] at hc
  cases hc
  exact h.2 _ (List.head_mem h.1)

theorem IsWord.isBlank_last (h : IsWord w) : ∀ c ∈ (cs ++ w).getLast?, isBlank c = false := by
  intro c hc
  rw [List.getLast?_append, List.getLast?_eq_some_getLast h.1] at hc
  cases hc
  exact h.2 _ (List.getLast_mem h.1)

theorem Blanks.isBlank_head (h : Blanks cs) : ∀ c ∈ cs.head?, isBlank c = true :=
  fun c hc => h c (List.mem_of_mem_head? hc)

/-! ## Cutting a text into words -/

/-- A separator cuts the pieces before it from those after it. -/
theorem pieces_append_separator {p : Char → Bool} (hc : p c = true) (front back : List Char) :
    pieces p (front ++ c :: back) = pieces p front ++ pieces p back := by
  induction front with
  | nil => simp [pieces, hc]
  | cons d front ih =>
    rw [List.cons_append, pieces, pieces, ih]
    split
    · rfl
    · obtain ⟨piece, rest, hpieces⟩ := List.exists_cons_of_ne_nil (pieces_ne_nil p front)
      rw [hpieces]
      rfl

theorem pieces_eq_singleton {p : Char → Bool} (hw : ∀ c ∈ w, p c = false) : pieces p w = [w] := by
  induction w with
  | nil => rfl
  | cons d w ih =>
    obtain ⟨hd, hw⟩ := List.forall_mem_cons.mp hw
    simp [pieces, hd, ih hw]

theorem pieces_append_cons {p : Char → Bool} (hw : ∀ c ∈ w, p c = false) (hc : p c = true) :
    pieces p (w ++ c :: cs) = w :: pieces p cs := by
  rw [pieces_append_separator hc, pieces_eq_singleton hw, List.singleton_append]

theorem words_cons_blank (hc : isBlank c = true) (cs : List Char) : words (c :: cs) = words cs := by
  rw [words, pieces, if_pos hc]
  rfl

theorem words_append_blank (hc : isBlank c = true) (front back : List Char) :
    words (front ++ c :: back) = words front ++ words back := by
  rw [words, pieces_append_separator hc, List.filter_append]
  rfl

theorem words_blanks_append (h : Blanks gap) (cs : List Char) : words (gap ++ cs) = words cs := by
  induction gap with
  | nil => rfl
  | cons c gap ih =>
    obtain ⟨hc, h⟩ := List.forall_mem_cons.mp h
    rw [List.cons_append, words_cons_blank hc, ih h]

/-- A word is cut off where it ends. -/
theorem words_word_append (hw : IsWord w) (hrest : ∀ c ∈ cs.head?, isBlank c = true) :
    words (w ++ cs) = w :: words cs := by
  cases cs with
  | nil =>
    rw [List.append_nil, words, pieces_eq_singleton hw.2]
    simpa [words, pieces] using hw.1
  | cons c cs =>
    have hc : isBlank c = true := hrest c rfl
    rw [words_cons_blank hc, words, pieces_append_cons hw.2 hc,
      List.filter_cons_of_pos (by simpa using hw.1)]
    rfl

/-- A word after a text with a gap between them comes after the text's own words. -/
theorem words_append_word (hne : gap ≠ []) (hgap : Blanks gap) (hw : IsWord w) (cs : List Char) :
    words (cs ++ (gap ++ w)) = words cs ++ [w] := by
  obtain ⟨c, gap, rfl⟩ := List.exists_cons_of_ne_nil hne
  obtain ⟨hc, hgap⟩ := List.forall_mem_cons.mp hgap
  have hword : words (w ++ []) = w :: words [] := words_word_append hw nofun
  rw [List.append_nil] at hword
  rw [List.cons_append, words_append_blank hc, words_blanks_append hgap, hword]
  rfl

/-- A text is cut where the mark stands for the first time. -/
theorem splitOnce_eq_some_iff {sep : Char} {before after : List Char} :
    splitOnce sep cs = some (before, after) ↔ cs = before ++ sep :: after ∧ sep ∉ before := by
  induction cs generalizing before after with
  | nil => simp [splitOnce]
  | cons c cs ih =>
    rw [splitOnce]
    split
    · next hc =>
      subst hc
      cases before with
      | nil => simp
      | cons d before =>
        refine iff_of_false (by simp) fun ⟨heq, hmem⟩ => ?_
        exact hmem ((List.cons.inj heq).1 ▸ List.mem_cons_self)
    · next hc =>
      cases before with
      | nil => simpa using fun heq _ => hc heq
      | cons d before =>
        rw [Option.map_eq_some_iff, List.cons_append, List.cons.injEq, List.mem_cons, not_or]
        constructor
        · rintro ⟨⟨before, after⟩, hcut, ⟨⟩⟩
          obtain ⟨rfl, hmem⟩ := ih.mp hcut
          exact ⟨⟨rfl, rfl⟩, Ne.symm hc, hmem⟩
        · rintro ⟨⟨rfl, rfl⟩, -, hmem⟩
          exact ⟨(before, after), ih.mpr ⟨rfl, hmem⟩, rfl⟩

theorem splitOnce_eq_none_iff {sep : Char} : splitOnce sep cs = none ↔ sep ∉ cs := by
  induction cs with
  | nil => simp [splitOnce]
  | cons c cs ih =>
    rw [splitOnce]
    split
    · next hc => simp [hc]
    · next hc => simp [ih, Ne.symm hc]

/-! ## Words with blanks between them -/

/-- The texts that have these words, with blanks between them and none at the ends. -/
inductive Spaced : List (List Char) → List Char → Prop
  | nil : Spaced [] []
  | one {w : List Char} : IsWord w → Spaced [w] w
  | more {w gap v cs : List Char} {ws} : IsWord w → gap ≠ [] → Blanks gap → Spaced (v :: ws) cs →
      Spaced (w :: v :: ws) (w ++ (gap ++ cs))

namespace Spaced

theorem isWord (h : Spaced ws cs) : ∀ w ∈ ws, IsWord w := by
  induction h with
  | nil => nofun
  | one hw => exact List.forall_mem_singleton.mpr hw
  | more hw _ _ _ ih => exact List.forall_mem_cons.mpr ⟨hw, ih⟩

theorem mem_of_mem_word (h : Spaced ws cs) (hw : w ∈ ws) (hc : c ∈ w) : c ∈ cs := by
  induction h with
  | nil => cases hw
  | one => exact List.mem_singleton.mp hw ▸ hc
  | more _ _ _ _ ih =>
    obtain rfl | hw := List.mem_cons.mp hw
    · exact List.mem_append_left _ hc
    · exact List.mem_append_right _ (List.mem_append_right _ (ih hw))

/-- A character of the text is one of a word or a blank. -/
theorem mem (h : Spaced ws cs) (hc : c ∈ cs) : (∃ w ∈ ws, c ∈ w) ∨ isBlank c = true := by
  induction h with
  | nil => cases hc
  | one => exact .inl ⟨_, List.mem_cons_self, hc⟩
  | more _ _ hgap _ ih =>
    obtain hc | hc := List.mem_append.mp hc
    · exact .inl ⟨_, List.mem_cons_self, hc⟩
    obtain hc | hc := List.mem_append.mp hc
    · exact .inr (hgap c hc)
    · exact (ih hc).imp_left fun ⟨v, hv, hc⟩ => ⟨v, List.mem_cons_of_mem _ hv, hc⟩

theorem exists_cons (h : Spaced (w :: ws) cs) : ∃ c rest, cs = c :: rest ∧ isBlank c = false := by
  cases h with
  | one hw | more hw =>
    obtain ⟨c, w, rfl⟩ := List.exists_cons_of_ne_nil hw.1
    exact ⟨c, _, rfl, hw.2 c List.mem_cons_self⟩

theorem words_append (h : Spaced ws cs) (hback : Blanks back) : words (cs ++ back) = ws := by
  have hnone : words back = [] := by
    rw [← List.append_nil back, words_blanks_append hback]
    rfl
  induction h with
  | nil => exact hnone
  | one hw => rw [words_word_append hw hback.isBlank_head, hnone]
  | @more w gap v cs ws hw hne hgap _ ih =>
    have hhead : ∀ c ∈ (gap ++ (cs ++ back)).head?, isBlank c = true := by
      intro c hc
      rw [List.head?_append, List.head?_eq_some_head hne] at hc
      cases hc
      exact hgap _ (List.head_mem hne)
    rw [List.append_assoc, List.append_assoc, words_word_append hw hhead, words_blanks_append hgap,
      ih]

theorem intercalate (h : ∀ w ∈ ws, IsWord w) : Spaced ws ([' '].intercalate ws) := by
  cases ws with
  | nil => exact .nil
  | cons w ws =>
    induction ws generalizing w with
    | nil =>
      rw [List.intercalate_singleton]
      exact .one (h w List.mem_cons_self)
    | cons v ws ih =>
      obtain ⟨hw, h⟩ := List.forall_mem_cons.mp h
      rw [List.intercalate_cons_cons, List.append_assoc]
      exact .more hw (by simp) (by decide) (ih v h)

end Spaced

/-- A text that does not start with a blank starts with a word. -/
theorem exists_word_append (hc : isBlank c = false) (cs : List Char) : ∃ w rest,
    c :: cs = w ++ rest ∧ IsWord w ∧ ∀ d ∈ rest.head?, isBlank d = true := by
  refine ⟨c :: cs.takeWhile (!isBlank ·), cs.dropWhile (!isBlank ·), ?_, ?_, fun d hd => ?_⟩
  · rw [List.cons_append, List.takeWhile_append_dropWhile]
  · refine ⟨List.cons_ne_nil _ _, List.forall_mem_cons.mpr ⟨hc, fun d hd => ?_⟩⟩
    simpa using List.mem_takeWhile_imp hd
  · have hnot := List.head?_dropWhile_not (!isBlank ·) cs
    rw [Option.mem_def.mp hd] at hnot
    simpa using hnot

/-- A text is its words with blanks between them, and blanks at the two ends. -/
theorem exists_spaced (cs : List Char) : ∃ front list back, Blanks front ∧
    Spaced (words cs) list ∧ Blanks back ∧ cs = front ++ (list ++ back) := by
  match cs with
  | [] => exact ⟨[], [], [], nofun, .nil, nofun, rfl⟩
  | c :: cs =>
    cases hc : isBlank c with
    | true =>
      obtain ⟨front, list, back, hfront, hlist, hback, heq⟩ := exists_spaced cs
      refine ⟨c :: front, list, back, List.forall_mem_cons.mpr ⟨hc, hfront⟩, ?_, hback, ?_⟩
      · rwa [words_cons_blank hc]
      · rw [List.cons_append, ← heq]
    | false =>
      obtain ⟨w, rest, hcut, hw, hrest⟩ := exists_word_append hc cs
      have hshorter : rest.length < (c :: cs).length := by
        rw [hcut, List.length_append]
        exact Nat.lt_add_of_pos_left (List.length_pos_iff.mpr hw.1)
      obtain ⟨front, list, back, hfront, hlist, hback, heq⟩ := exists_spaced rest
      rw [hcut, words_word_append hw hrest]
      generalize words rest = ws at hlist
      cases ws with
      | nil =>
        cases hlist
        have hblank : Blanks rest := heq ▸ List.forall_mem_append.mpr ⟨hfront, hback⟩
        exact ⟨[], w, rest, nofun, .one hw, hblank, rfl⟩
      | cons v ws =>
        -- the rest starts with a blank, and the next word does not
        have hne : front ≠ [] := by
          rintro rfl
          obtain ⟨d, list, rfl, hd⟩ := hlist.exists_cons
          rw [hrest d (by rw [heq]; rfl)] at hd
          cases hd
        refine ⟨[], _, back, nofun, .more hw hne hfront hlist, hback, ?_⟩
        rw [heq, List.nil_append, List.append_assoc, List.append_assoc]
  termination_by cs.length
  decreasing_by
  · assumption
  · exact Nat.lt_succ_self _

theorem words_eq_iff : words cs = ws ↔ ∃ front list back, Blanks front ∧ Spaced ws list ∧
    Blanks back ∧ cs = front ++ (list ++ back) := by
  constructor
  · rintro rfl
    exact exists_spaced cs
  · rintro ⟨front, list, back, hfront, hlist, hback, rfl⟩
    rw [words_blanks_append hfront, hlist.words_append hback]

theorem isWord_of_mem_words (h : w ∈ words cs) : IsWord w := by
  obtain ⟨_, _, _, -, hlist, -, -⟩ := exists_spaced cs
  exact hlist.isWord w h

theorem mem_of_mem_words (h : w ∈ words cs) (hc : c ∈ w) : c ∈ cs := by
  obtain ⟨front, list, back, -, hlist, -, heq⟩ := exists_spaced cs
  rw [heq]
  exact List.mem_append_right _ (List.mem_append_left _ (hlist.mem_of_mem_word h hc))

theorem mem_words_or_isBlank (hc : c ∈ cs) : (∃ w ∈ words cs, c ∈ w) ∨ isBlank c = true := by
  obtain ⟨front, list, back, hfront, hlist, hback, heq⟩ := exists_spaced cs
  rw [heq, List.mem_append, List.mem_append] at hc
  obtain hc | hc | hc := hc
  · exact .inr (hfront c hc)
  · exact hlist.mem hc
  · exact .inr (hback c hc)

theorem words_eq_nil_iff : words cs = [] ↔ Blanks cs := by
  constructor
  · intro hnone c hc
    obtain ⟨w, hw, -⟩ | hblank := mem_words_or_isBlank hc
    · rw [hnone] at hw
      cases hw
    · exact hblank
  · intro h
    have hwords := words_blanks_append h []
    rwa [List.append_nil] at hwords

theorem words_intercalate (h : ∀ w ∈ ws, IsWord w) : words ([' '].intercalate ws) = ws := by
  have hback : Blanks [] := nofun
  have hwords := (Spaced.intercalate h).words_append hback
  rwa [List.append_nil] at hwords

/-! ## Blanks at the ends -/

/-- The text neither starts nor ends with a blank. -/
structure Trimmed (cs : List Char) : Prop where
  head : ∀ c ∈ cs.head?, isBlank c = false
  last : ∀ c ∈ cs.getLast?, isBlank c = false

theorem exists_trimStart (cs : List Char) : ∃ front, Blanks front ∧ cs = front ++ trimStart cs :=
  ⟨cs.takeWhile isBlank, fun _ hc => List.mem_takeWhile_imp hc,
    List.takeWhile_append_dropWhile.symm⟩

theorem trimStart_append (hfront : Blanks front) (h : ∀ c ∈ cs.head?, isBlank c = false) :
    trimStart (front ++ cs) = cs :=
  dropWhile_append_eq hfront h

theorem isBlank_head_trimStart (cs : List Char) :
    ∀ c ∈ (trimStart cs).head?, isBlank c = false := by
  intro c hc
  have hnot := List.head?_dropWhile_not isBlank cs
  rw [← trimStart, Option.mem_def.mp hc] at hnot
  exact hnot

theorem trimEnd_eq (cs : List Char) : trimEnd cs = (trimStart cs.reverse).reverse := rfl

theorem exists_trimEnd (cs : List Char) : ∃ back, Blanks back ∧ cs = trimEnd cs ++ back := by
  obtain ⟨back, hback, heq⟩ := exists_trimStart cs.reverse
  refine ⟨back.reverse, fun c hc => hback c (List.mem_reverse.mp hc), ?_⟩
  rw [trimEnd_eq, ← List.reverse_append, ← heq, List.reverse_reverse]

theorem exists_trim (cs : List Char) : ∃ front back, Blanks front ∧ Blanks back ∧
    cs = front ++ (trim cs ++ back) := by
  obtain ⟨front, hfront, hstart⟩ := exists_trimStart cs
  obtain ⟨back, hback, hend⟩ := exists_trimEnd (trimStart cs)
  exact ⟨front, back, hfront, hback, by rw [trim, ← hend, ← hstart]⟩

theorem trimmed_trim (cs : List Char) : Trimmed (trim cs) where
  head c hc := by
    obtain ⟨back, -, heq⟩ := exists_trimEnd (trimStart cs)
    refine isBlank_head_trimStart cs c ?_
    rw [heq, ← trim, List.head?_append, Option.mem_def.mp hc]
    rfl
  last c hc := by
    refine isBlank_head_trimStart (trimStart cs).reverse c ?_
    rwa [trim, trimEnd_eq, List.getLast?_reverse] at hc

/-- What stands between blanks at the ends is what remains. -/
theorem trim_append (h : Trimmed cs) (hfront : Blanks front) (hback : Blanks back) :
    trim (front ++ (cs ++ back)) = cs := by
  cases cs with
  | nil =>
    have hblank : Blanks (front ++ back) := List.forall_mem_append.mpr ⟨hfront, hback⟩
    have hstart : trimStart (front ++ back ++ []) = [] := trimStart_append hblank nofun
    rw [List.append_nil] at hstart
    rw [List.nil_append, trim, hstart]
    rfl
  | cons c cs =>
    have hlast : ∀ d ∈ (c :: cs).reverse.head?, isBlank d = false := by
      rw [List.head?_reverse]
      exact h.last
    have hback : Blanks back.reverse := fun d hd => hback d (List.mem_reverse.mp hd)
    have hstart : trimStart (front ++ (c :: cs ++ back)) = c :: cs ++ back :=
      trimStart_append hfront fun d hd => h.head d hd
    rw [trim, hstart, trimEnd_eq, List.reverse_append, trimStart_append hback hlast,
      List.reverse_reverse]

theorem Trimmed.trim_eq (h : Trimmed cs) : trim cs = cs := by
  have hnone : Blanks [] := nofun
  have htrim := trim_append h hnone hnone
  rwa [List.nil_append, List.append_nil] at htrim

theorem IsWord.trimmed (h : IsWord w) : Trimmed w where
  head c hc := h.2 c (List.mem_of_mem_head? hc)
  last c hc := h.2 c (List.mem_of_mem_getLast? hc)

namespace Trimmed

theorem front_eq_nil (h : Trimmed (front ++ cs)) (hfront : Blanks front) : front = [] := by
  cases front with
  | nil => rfl
  | cons c front =>
    have hc := h.head c rfl
    rw [hfront c List.mem_cons_self] at hc
    cases hc

theorem back_eq_nil (h : Trimmed (cs ++ back)) (hback : Blanks back) : back = [] := by
  by_contra hne
  have hc := h.last (back.getLast hne)
    (by simp [List.getLast?_append, List.getLast?_eq_some_getLast hne])
  rw [hback _ (List.getLast_mem hne)] at hc
  cases hc

variable {sep : Char} {before after : List Char}

/-- What stands before a mark has blanks at most after it. -/
theorem exists_eq_trim_append (h : Trimmed (before ++ sep :: after)) :
    ∃ gap, Blanks gap ∧ before = trim before ++ gap := by
  obtain ⟨front, back, hfront, hback, heq⟩ := exists_trim before
  rw [heq, List.append_assoc] at h
  obtain rfl := h.front_eq_nil hfront
  exact ⟨back, hback, heq⟩

/-- What stands after a mark has blanks at most before it. -/
theorem exists_eq_append_trim (h : Trimmed (before ++ sep :: after)) :
    ∃ gap, Blanks gap ∧ after = gap ++ trim after := by
  obtain ⟨front, back, hfront, hback, heq⟩ := exists_trim after
  rw [heq, List.append_cons, ← List.append_assoc, ← List.append_assoc] at h
  obtain rfl := h.back_eq_nil hback
  exact ⟨front, hfront, by rwa [List.append_nil] at heq⟩

end Trimmed

end LispBridge.Chars
