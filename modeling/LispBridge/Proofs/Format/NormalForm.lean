import LispBridge.Proofs.Format.Spacing

/-!
# Squeezed scripts

`NormalForm` says what a squeezed script looks like: no comments, and no blanks of code but single
spaces between two characters that need one. A squeeze writes such a script
(`Squeeze.Wrote.normalFrom_run`) and keeps one as it is (`Squeeze.Wrote.run_eq`); so these are its
fixed points (`minify_normal_form`).
-/

namespace LispBridge.Format

open Chars

def isClosing (c : Char) : Bool := c = ')' || c = ']'

namespace Mode

/-- Outside of strings and escapes. -/
def isBare (m : Mode) : Bool := m = .code || m = .comment

/-- Whether a character read in this mode is a blank outside of strings and escapes. -/
def isGap (m : Mode) (c : Char) : Bool := m.isBare && isBlank c

end Mode

/-- What holds of each character of a text in normal form. -/
structure Place.Normal (x : Place) : Prop where
  no_comment : x.mode.isBare = true → x.char ≠ ';'
  space : x.mode.isGap x.char = true → x.char = ' '
  not_first : x.mode.isGap x.char = true → x.before ≠ none
  single : x.mode.isGap x.char = true → ∀ p ∈ x.before, p.1.isGap p.2 = false
  opening : x.mode.isGap x.char = true → ∀ p ∈ x.before, isOpening p.2 = false
  closing : isClosing x.char = true → ∀ p ∈ x.before, p.1.isGap p.2 = false

theorem Place.normal_iff {x : Place} : x.Normal ↔
    (x.mode.isBare = true → x.char ≠ ';') ∧
      (x.mode.isGap x.char = true → x.char = ' ' ∧ x.before ≠ none ∧
        ∀ p ∈ x.before, p.1.isGap p.2 = false ∧ isOpening p.2 = false) ∧
      (isClosing x.char = true → ∀ p ∈ x.before, p.1.isGap p.2 = false) := by
  constructor
  · intro h
    exact ⟨h.no_comment, fun hgap => ⟨h.space hgap, h.not_first hgap, fun p hp =>
      ⟨h.single hgap p hp, h.opening hgap p hp⟩⟩, h.closing⟩
  · intro ⟨hcomment, hgap, hclosing⟩
    exact ⟨hcomment, fun h => (hgap h).1, fun h => (hgap h).2.1,
      fun h p hp => ((hgap h).2.2 p hp).1, fun h p hp => ((hgap h).2.2 p hp).2, hclosing⟩

instance : DecidablePred Place.Normal := fun _ => decidable_of_iff _ Place.normal_iff.symm

/-- The normal form of a text, from a mode on. -/
structure NormalFrom (m : Mode) (before : Option (Mode × Char)) (cs : List Char) : Prop where
  normal : ∀ x ∈ placesFrom m before cs, x.Normal
  not_last : ∀ x ∈ (placesFrom m before cs).getLast?, x.mode.isGap x.char = false

/-- No semicolon and no blank stands outside of strings and escapes but single spaces: none at the
two ends of the text, next to another blank of code, after an opening bracket or before a closing
one. -/
def NormalForm (code : String) : Prop := NormalFrom .code none code.toList

instance (m : Mode) (before : Option (Mode × Char)) (cs : List Char) :
    Decidable (NormalFrom m before cs) :=
  decidable_of_iff ((∀ x ∈ placesFrom m before cs, x.Normal) ∧
      ∀ x ∈ (placesFrom m before cs).getLast?, x.mode.isGap x.char = false)
    ⟨fun ⟨hnormal, hlast⟩ => ⟨hnormal, hlast⟩, fun h => ⟨h.normal, h.not_last⟩⟩

instance : DecidablePred NormalForm := fun code =>
  inferInstanceAs (Decidable (NormalFrom .code none code.toList))

variable {m : Mode} {before : Option (Mode × Char)} {c : Char} {cs : List Char}

theorem normalFrom_nil : NormalFrom m before [] := ⟨by simp [placesFrom], by simp [placesFrom]⟩

theorem normalFrom_cons : NormalFrom m before (c :: cs) ↔
    Place.Normal ⟨m, before, c⟩ ∧ (cs = [] → m.isGap c = false) ∧
      NormalFrom (m.next c) (some (m, c)) cs := by
  have hnil : placesFrom (m.next c) (some (m, c)) cs = [] ↔ cs = [] := by
    cases cs <;> simp [placesFrom]
  constructor
  · rintro ⟨hnormal, hlast⟩
    rw [placesFrom] at hnormal hlast
    obtain ⟨hc, hcs⟩ := List.forall_mem_cons.mp hnormal
    refine ⟨hc, fun h => ?_, hcs, fun x hx => ?_⟩
    · exact hlast ⟨m, before, c⟩ (by rw [hnil.mpr h]; rfl)
    · exact hlast x (by rw [List.getLast?_cons, Option.mem_def.mp hx]; rfl)
  · rintro ⟨hc, hend, hnormal, hlast⟩
    refine ⟨List.forall_mem_cons.mpr ⟨hc, hnormal⟩, fun x hx => ?_⟩
    rw [placesFrom, List.getLast?_cons] at hx
    cases hx' : (placesFrom (m.next c) (some (m, c)) cs).getLast? with
    | none =>
      rw [hx'] at hx
      cases hx
      exact hend (hnil.mp (List.getLast?_eq_none_iff.mp hx'))
    | some y =>
      rw [hx'] at hx
      cases hx
      exact hlast y hx'

/-- What is no blank and no semicolon of code can follow anything but a blank before a closing
bracket. -/
theorem Place.Normal.of_not_gap (hcomment : m.isBare = true → c ≠ ';') (hgap : m.isGap c = false)
    (hclosing : isClosing c = true → ∀ p ∈ before, p.1.isGap p.2 = false) :
    Place.Normal ⟨m, before, c⟩ where
  no_comment := hcomment
  space h := absurd h (by simp [hgap])
  not_first h := absurd h (by simp [hgap])
  single h := absurd h (by simp [hgap])
  opening h := absurd h (by simp [hgap])
  closing := hclosing

/-- A space can follow anything but a blank of code and an opening bracket. -/
theorem Place.Normal.single_space {p : Mode × Char} (hgap : p.1.isGap p.2 = false)
    (hopening : isOpening p.2 = false) : Place.Normal ⟨.code, some p, ' '⟩ where
  no_comment _ := (by decide : ' ' ≠ ';')
  space _ := rfl
  not_first _ := Option.some_ne_none p
  single _ := by simpa using hgap
  opening _ := by simpa using hopening
  closing h := by cases h

namespace Squeeze

variable {k : Squeeze}

theorem spaceBefore_eq_true_iff : k.spaceBefore c = true ↔
    k.gap = true ∧ (∃ b, k.last = some b ∧ isOpening b = false) ∧ isClosing c = false := by
  rw [spaceBefore, Bool.and_eq_true]
  refine and_congr_right fun _ => ?_
  split <;> simp_all [isOpening, isClosing]

theorem run_keep_next (hskip : k.skips c = false) :
    k.run (c :: cs) = k.lead c ++ c :: (k.next c).run cs := by
  rw [run_keep hskip, next, hskip, if_neg Bool.false_ne_true]

/-! ## What a squeeze writes -/

/-- A character that is written is no blank and no semicolon of code. -/
theorem bare_of_keep (hskip : k.skips c = false) :
    (k.mode.isBare = true → c ≠ ';') ∧ k.mode.isGap c = false := by
  obtain ⟨m, l, g⟩ := k
  cases m with
  | code => simpa [skips, Mode.isGap, Mode.isBare] using hskip
  | comment => cases hskip
  | escaped | string | stringEscaped =>
    refine ⟨fun h => ?_, rfl⟩
    cases h

/-- A gap is one of code, or of a comment that is not over. -/
theorem Wrote.code_of_gap (h : k.Wrote before) (hmode : k.mode ≠ .comment) (hgap : k.gap = true) :
    k.mode = .code := by
  have hout := h.gap hgap
  obtain ⟨m, l, g⟩ := k
  cases m with
  | comment => exact absurd rfl hmode
  | _ => exact hout

/-- The last character that was written is no blank of code. -/
theorem Wrote.not_gap (h : k.Wrote before) : ∀ p ∈ before, p.1.isGap p.2 = false := by
  rintro ⟨m, b⟩ hp
  obtain ⟨hcomment, hblank⟩ := h.visible m b hp
  simpa [Mode.isGap, Mode.isBare, hcomment] using hblank

theorem Wrote.normalFrom_run (h : k.Wrote before) (cs : List Char) :
    NormalFrom (outMode k.mode) before (k.run cs) := by
  induction cs generalizing k before with
  | nil => exact normalFrom_nil
  | cons c cs ih =>
    cases hskip : k.skips c with
    | true =>
      obtain ⟨hnext, hmode⟩ := h.skip hskip
      have hemit : k.emit c = [] := by simp [emit, hskip]
      rw [run, hemit, ← hmode]
      exact ih hnext
    | false =>
      obtain ⟨hnext, hout, hmode⟩ := h.keep hskip
      obtain ⟨hcomment, hgap⟩ := bare_of_keep hskip
      have ih := ih hnext
      rw [hout] at ih
      rw [run_keep_next hskip, hmode]
      cases hdue : k.spaceBefore c with
      | false =>
        rw [lead, hdue, if_neg Bool.false_ne_true, List.nil_append]
        exact normalFrom_cons.mpr ⟨.of_not_gap hcomment hgap fun _ => h.not_gap, fun _ => hgap, ih⟩
      | true =>
        obtain ⟨hk, ⟨b, hlast, hb⟩, hc⟩ := spaceBefore_eq_true_iff.mp hdue
        have hcode : k.mode = .code := hmode ▸ h.gap hk
        obtain ⟨p, rfl, rfl⟩ : ∃ p, before = some p ∧ p.2 = b := by
          rw [h.last] at hlast
          exact Option.map_eq_some_iff.mp hlast
        rw [lead, hdue, if_pos rfl, List.singleton_append]
        rw [hcode] at ih hcomment hgap ⊢
        have hchar : Place.Normal ⟨.code, some (.code, ' '), c⟩ :=
          .of_not_gap hcomment hgap fun hclosing => absurd hclosing (by simp [hc])
        exact normalFrom_cons.mpr ⟨.single_space (h.not_gap p rfl) hb, fun h => absurd h (by simp),
          normalFrom_cons.mpr ⟨hchar, fun _ => hgap, ih⟩⟩

/-! ## What a squeeze keeps -/

/-- The space that a squeeze has passed over and not written yet. -/
def due (k : Squeeze) : List Char := if k.gap then [' '] else []

theorem due_of_gap (h : k.gap = true) : k.due = [' '] := by rw [due, h, if_pos rfl]

theorem due_of_no_gap (h : k.gap = false) : k.due = [] := by
  rw [due, h, if_neg Bool.false_ne_true]

/-- Of a text in normal form nothing is passed over but a single space. -/
theorem skips_of_normalFrom (hmode : k.mode ≠ .comment) (hskip : k.skips c = true)
    (hnormal : NormalFrom k.mode before (k.due ++ c :: cs)) :
    k.mode = .code ∧ k.gap = false ∧ c = ' ' := by
  obtain ⟨m, l, g⟩ := k
  cases m with
  | comment => exact absurd rfl hmode
  | escaped | string | stringEscaped => cases hskip
  | code =>
    simp only [skips, Bool.or_eq_true, decide_eq_true_eq] at hskip
    cases g with
    | true =>
      obtain ⟨-, -, hrest⟩ := normalFrom_cons.mp hnormal
      obtain ⟨hc, -, -⟩ := normalFrom_cons.mp hrest
      rcases hskip with rfl | hblank
      · exact absurd rfl (hc.no_comment rfl)
      · cases hc.single hblank _ rfl
    | false =>
      obtain ⟨hc, -, -⟩ := normalFrom_cons.mp hnormal
      rcases hskip with rfl | hblank
      · exact absurd rfl (hc.no_comment rfl)
      · exact ⟨rfl, rfl, hc.space hblank⟩

/-- In a text in normal form the space that is due is one that a squeeze writes. -/
theorem Wrote.lead_eq_due (h : k.Wrote before) (hmode : k.mode ≠ .comment)
    (hnormal : NormalFrom k.mode before (k.due ++ c :: cs)) : k.lead c = k.due := by
  cases hgap : k.gap with
  | false =>
    rw [due_of_no_gap hgap, lead, spaceBefore, hgap, Bool.false_and, if_neg Bool.false_ne_true]
  | true =>
    rw [due_of_gap hgap, h.code_of_gap hmode hgap] at hnormal
    obtain ⟨hspace, -, hrest⟩ := normalFrom_cons.mp hnormal
    obtain ⟨hc, -, -⟩ := normalFrom_cons.mp hrest
    obtain ⟨p, hp⟩ := Option.ne_none_iff_exists'.mp (hspace.not_first rfl)
    have hlast : k.last = some p.2 := by rw [h.last, show before = some p from hp]; rfl
    have hclosing : isClosing c = false := by
      by_contra hclosing
      cases hc.closing (Bool.not_eq_false _ ▸ hclosing) _ rfl
    have hdue : k.spaceBefore c = true :=
      spaceBefore_eq_true_iff.mpr ⟨hgap, ⟨p.2, hlast, hspace.opening rfl p hp⟩, hclosing⟩
    rw [due_of_gap hgap, lead, if_pos hdue]

/-- A text in normal form is written as it is, from the space on that was passed over last. -/
theorem Wrote.run_eq (h : k.Wrote before) (hmode : k.mode ≠ .comment)
    (hnormal : NormalFrom k.mode before (k.due ++ cs)) : k.run cs = k.due ++ cs := by
  induction cs generalizing k before with
  | nil =>
    cases hgap : k.gap with
    | false => rw [due_of_no_gap hgap]; rfl
    | true =>
      rw [due_of_gap hgap, h.code_of_gap hmode hgap] at hnormal
      cases (normalFrom_cons.mp hnormal).2.1 rfl
  | cons c cs ih =>
    cases hskip : k.skips c with
    | true =>
      obtain ⟨hcode, hgap, rfl⟩ := skips_of_normalFrom hmode hskip hnormal
      have hnext := (h.skip hskip).1
      obtain ⟨m, l, g⟩ := k
      obtain rfl : m = .code := hcode
      obtain rfl : g = false := hgap
      rw [run_blank (by decide)]
      exact ih hnext (fun h => by cases h) hnormal
    | false =>
      obtain ⟨hnext, hout, -⟩ := h.keep hskip
      have hrest : NormalFrom (k.mode.next c) (some (k.mode, c)) cs := by
        cases hgap : k.gap with
        | false =>
          rw [due_of_no_gap hgap] at hnormal
          exact (normalFrom_cons.mp hnormal).2.2
        | true =>
          have hcode := h.code_of_gap hmode hgap
          rw [due_of_gap hgap, hcode] at hnormal
          rw [hcode]
          exact (normalFrom_cons.mp (normalFrom_cons.mp hnormal).2.2).2.2
      have hmode' : (k.next c).mode ≠ .comment := by
        intro hcomment
        rw [hcomment, ← mode_next, hcomment] at hout
        cases hout
      have hgap' : (k.next c).gap = false := by rw [next, hskip, if_neg Bool.false_ne_true]
      have ih := ih hnext hmode'
      rw [due_of_no_gap hgap', mode_next] at ih
      rw [run_keep_next hskip, h.lead_eq_due hmode hnormal, ih hrest]
      rfl

end Squeeze

/-- A squeezed script is in normal form, and a script is in normal form just if squeezing leaves it
as it is; so a script that was squeezed is not changed by squeezing it again. -/
theorem minify_normal_form (code : String) : NormalForm (minify code) ∧
    (minify code = code ↔ NormalForm code) ∧ minify (minify code) = minify code := by
  have hwrote : Squeeze.Wrote {} none := Squeeze.wrote_nothing
  have hnormal (code : String) : NormalForm (minify code) := by
    rw [NormalForm, minify, String.toList_ofList]
    exact hwrote.normalFrom_run code.toList
  have hkept {code : String} (h : NormalForm code) : minify code = code := by
    have hrun : Squeeze.run {} code.toList = code.toList := hwrote.run_eq (by decide) h
    rw [minify, hrun, String.ofList_toList]
  refine ⟨hnormal code, ⟨fun h => ?_, hkept⟩, hkept (hnormal code)⟩
  rw [← h]
  exact hnormal code

/-- Blanks and semicolons of a string and of escapes are free, and a blank next to an escaped one is
a single space; after an escaped bracket there is none. -/
example : NormalForm "(f \"( ;  \" \\;\\  [#\\(a \\) \\\n\\" ∧ ¬NormalForm "(f #\\( a)" := by decide

end LispBridge.Format
