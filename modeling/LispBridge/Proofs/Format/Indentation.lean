import LispBridge.Proofs.Format.CommentLine
import LispBridge.Proofs.Format.Spacing

/-!
# Scripts that are laid out

`openLists` counts the lists that are open after a text. A layout puts each list at the start of a
line, behind one indentation for each list that is open (`lists_start_lines`): `Layout.Laid` says
how a cursor stands to the text that has been written, and each character keeps it
(`Layout.Laid.next`). A layout finds nothing to change in what a layout has written
(`Layout.Plain.run_run`, `prettyWith_prettyWith`).
-/

namespace LispBridge.Format

open Chars

variable {c : Char} {cs text before after : List Char} {d : Nat} {f : Bool}

/-! ## Open lists -/

namespace Place

/-- A closing bracket outside of strings, comments and escapes. -/
def closesList (x : Place) : Bool := x.mode = .code && x.char = ')'

/-- The number of open lists after a place, where a bracket that closes nothing does not count. -/
def depthAfter (d : Nat) (x : Place) : Nat :=
  if x.opensList then d + 1 else if x.closesList then d - 1 else d

end Place

/-- The number of lists that are open after a text. -/
def openLists (cs : List Char) : Nat := (placesFrom .code none cs).foldl Place.depthAfter 0

theorem modeAfter_concat (cs : List Char) (c : Char) :
    modeAfter (cs ++ [c]) = (modeAfter cs).next c := by
  rw [modeAfter, List.foldl_concat, modeAfter]

theorem exists_placesFrom_concat (m : Mode) (p : Option (Mode × Char)) (cs : List Char) (c : Char) :
    ∃ p', placesFrom m p (cs ++ [c]) = placesFrom m p cs ++ [⟨cs.foldl Mode.next m, p', c⟩] := by
  induction cs generalizing m p with
  | nil => exact ⟨p, rfl⟩
  | cons b cs ih =>
    obtain ⟨p', hp'⟩ := ih (m.next b) (some (m, b))
    exact ⟨p', by rw [List.cons_append, placesFrom, hp']; rfl⟩

theorem openLists_concat (cs : List Char) (c : Char) (f : Bool) :
    openLists (cs ++ [c]) = Cursor.depthAfter ⟨modeAfter cs, openLists cs, f⟩ c := by
  obtain ⟨p, hp⟩ := exists_placesFrom_concat .code none cs c
  rw [openLists, hp, List.foldl_concat, ← openLists, ← modeAfter, Place.depthAfter,
    Cursor.depthAfter, Place.opensList, Place.closesList]
  by_cases hm : modeAfter cs = .code <;> simp [hm]

/-- Blanks of code change neither the mode nor the number of open lists. -/
theorem modeAfter_openLists_append {bs : List Char} (hm : modeAfter cs = .code)
    (h : ∀ b ∈ bs, isBlank b = true) :
    modeAfter (cs ++ bs) = .code ∧ openLists (cs ++ bs) = openLists cs := by
  induction bs generalizing cs with
  | nil => rw [List.append_nil]; exact ⟨hm, rfl⟩
  | cons b bs ih =>
    obtain ⟨hb, h⟩ := List.forall_mem_cons.mp h
    have hmode : modeAfter (cs ++ [b]) = .code := by
      rw [modeAfter_concat, hm, Mode.next_code (.inl hb)]
    have hdepth : openLists (cs ++ [b]) = openLists cs := by
      rw [openLists_concat cs b false, Cursor.depthAfter_of_isBlank hb]
    have ih := ih hmode h
    rw [hdepth, List.append_assoc] at ih
    exact ih

/-! ## Indented lists -/

theorem startsLine_concat (hc : isBreak c = true)
    (hm : modeAfter cs = .code ∨ modeAfter cs = .comment) : StartsLine (cs ++ [c]) := by
  intro b hb
  rw [List.getLast?_concat] at hb
  cases hb
  exact ⟨hc, by rwa [List.dropLast_concat]⟩

namespace Layout

variable {o : Layout} {k : Cursor}

/-- A list can follow the text: its last line is the indentation for the lists that are open. -/
def AtList (o : Layout) (text : List Char) : Prop :=
  ∃ front, text = front ++ copies (openLists text) o.indent.toList ∧ StartsLine front

/-- Each list of code starts a line, indented by the number of lists that are open. -/
def Indented (o : Layout) (text : List Char) : Prop :=
  ∀ before after, text = before ++ '(' :: after → modeAfter before = .code → o.AtList before

theorem indented_nil : o.Indented [] := by
  intro before after h
  simp at h

theorem Indented.concat (h : o.Indented text)
    (hc : c = '(' → modeAfter text = .code → o.AtList text) : o.Indented (text ++ [c]) := by
  intro before after heq hm
  rcases List.eq_nil_or_concat' after with rfl | ⟨after, b, rfl⟩
  · obtain ⟨rfl, hcs⟩ := List.append_inj' heq rfl
    exact hc (List.singleton_inj.mp hcs) hm
  · rw [← List.cons_append, ← List.append_assoc] at heq
    exact h before after (List.append_inj' heq rfl).1 hm

theorem Indented.append_of_not_mem (h : o.Indented text) (hcs : '(' ∉ cs) :
    o.Indented (text ++ cs) := by
  induction cs generalizing text with
  | nil => rwa [List.append_nil]
  | cons c cs ih =>
    obtain ⟨hc, hcs⟩ := not_or.mp (mt List.mem_cons.mpr hcs)
    rw [List.append_cons]
    exact ih (h.concat fun heq => absurd heq.symm hc) hcs

/-- How a cursor stands to the text that has been written up to it. -/
structure Laid (o : Layout) (k : Cursor) (text : List Char) : Prop where
  mode : modeAfter text = k.mode
  depth : openLists text = k.depth
  fresh : k.fresh = true → k.mode = .comment ∨ k.mode = .code ∧ StartsLine text
  indented : o.Indented text

theorem laid_nil : o.Laid {} [] :=
  ⟨rfl, rfl, fun _ => .inr ⟨rfl, fun _ hb => by cases hb⟩, indented_nil⟩

/-- The text before a list, with what is put before its bracket. -/
theorem Laid.lead (h : o.Laid ⟨.code, d, f⟩ text) (ho : o.Plain) :
    modeAfter (text ++ o.lead ⟨.code, d, f⟩) = .code ∧
      openLists (text ++ o.lead ⟨.code, d, f⟩) = d ∧ o.AtList (text ++ o.lead ⟨.code, d, f⟩) ∧
      o.Indented (text ++ o.lead ⟨.code, d, f⟩) := by
  have hblank := ho.lead_blank ⟨.code, d, f⟩
  obtain ⟨hmode, hdepth⟩ := modeAfter_openLists_append h.mode hblank
  have hdepth : openLists (text ++ o.lead ⟨.code, d, f⟩) = d := hdepth.trans h.depth
  refine ⟨hmode, hdepth, ?_, h.indented.append_of_not_mem fun hmem => ?_⟩
  · rw [AtList, hdepth]
    cases f with
    | true =>
      obtain hcomment | ⟨-, hstart⟩ := h.fresh rfl
      · cases hcomment
      · exact ⟨text, rfl, hstart⟩
    | false =>
      refine ⟨text ++ o.newline.toList, (List.append_assoc ..).symm, ?_⟩
      have hne : o.newline.toList ≠ [] := by simpa using ho.newline_ne
      have hbreak := ho.newline
      obtain hnil | ⟨bs, b, hbs⟩ := List.eq_nil_or_concat' o.newline.toList
      · exact absurd hnil hne
      rw [hbs] at hbreak ⊢
      obtain ⟨hbs, hb⟩ := List.forall_mem_append.mp hbreak
      have hblanks : ∀ c ∈ bs, isBlank c = true := fun c hc => isBlank_of_isBreak (hbs c hc)
      rw [← List.append_assoc]
      exact startsLine_concat (hb b List.mem_cons_self)
        (.inl (modeAfter_openLists_append h.mode hblanks).1)
  · cases hblank '(' hmem

/-- A character that is written as it is. -/
theorem Laid.keep (h : o.Laid k text) (hopen : ¬(k.mode = .code ∧ c = '('))
    (hkeep : k.mode = .code → (c = ' ' ∨ c = '\t') → k.fresh = false) :
    o.Laid (k.next c) (text ++ [c]) := by
  obtain ⟨m, d, f⟩ := k
  refine ⟨?_, ?_, fun hfresh => ?_, ?_⟩
  · rw [modeAfter_concat, h.mode]
    rfl
  · rw [openLists_concat text c f, h.mode, h.depth]
    rfl
  · have hbreak (hc : isBreak c = true) (hm : m = .code ∨ m = .comment) :
        m.next c = .code ∧ StartsLine (text ++ [c]) := by
      refine ⟨?_, startsLine_concat hc (by rwa [h.mode])⟩
      rcases hm with rfl | rfl
      · exact Mode.next_code (.inl (isBlank_of_isBreak hc))
      · exact if_pos hc
    cases m with
    | code =>
      rcases Bool.or_eq_true_iff.mp hfresh with hc | hc
      · exact .inr (hbreak hc (.inl rfl))
      · simp only [Bool.and_eq_true, Bool.or_eq_true, decide_eq_true_eq] at hc
        obtain ⟨rfl, hblank | rfl⟩ := hc
        · cases hkeep rfl hblank
        · exact .inl rfl
    | escaped => cases hfresh
    | comment =>
      cases hc : isBreak c with
      | true => exact .inr (hbreak hc (.inr rfl))
      | false => exact .inl (by simp [Cursor.next, Mode.next, hc])
    | string | stringEscaped =>
      obtain hm | ⟨hm, -⟩ := h.fresh hfresh <;> cases hm
  · exact h.indented.concat fun hc hm => absurd ⟨h.mode ▸ hm, hc⟩ hopen

theorem Laid.next (h : o.Laid k text) (ho : o.Plain) (c : Char) :
    o.Laid (k.next c) (text ++ o.emit k c) := by
  obtain ⟨m, d, f⟩ := k
  by_cases hm : m = .code
  · subst hm
    by_cases hopen : c = '('
    · subst hopen
      obtain ⟨hmode, hdepth, hat, hindented⟩ := h.lead ho
      have hemit : text ++ o.emit ⟨.code, d, f⟩ '(' = text ++ o.lead ⟨.code, d, f⟩ ++ ['('] := by
        simp [emit, Layout.lead]
      have hfresh : (Cursor.next ⟨.code, d, f⟩ '(').fresh = false := by
        simp [Cursor.next, Cursor.freshAfter, isBreak]
      rw [hemit]
      refine ⟨?_, ?_, fun ht => absurd ht (by simp [hfresh]), hindented.concat fun _ _ => hat⟩
      · rw [modeAfter_concat, hmode]
        rfl
      · rw [openLists_concat _ _ f, hmode, hdepth]
        rfl
    by_cases hdrop : (c = ' ' ∨ c = '\t') ∧ f = true
    · have hemit : o.emit ⟨.code, d, f⟩ c = [] := by simp [emit, hopen, hdrop]
      have hnext : Cursor.next ⟨.code, d, f⟩ c = ⟨.code, d, f⟩ := by
        obtain ⟨rfl | rfl, rfl⟩ := hdrop <;> rfl
      rwa [hemit, hnext, List.append_nil]
    · have hemit : o.emit ⟨.code, d, f⟩ c = [c] := by simp [emit, hopen, hdrop]
      rw [hemit]
      exact h.keep (fun hc => hopen hc.2) fun _ hc => by simpa [hc] using hdrop
  · rw [o.emit_of_ne_code hm]
    exact h.keep (fun hc => hm hc.1) fun hc => absurd hc hm

theorem Laid.indented_run (h : o.Laid k text) (ho : o.Plain) (cs : List Char) :
    o.Indented (text ++ o.run k cs) := by
  induction cs generalizing k text with
  | nil => rw [run, List.append_nil]; exact h.indented
  | cons c cs ih =>
    rw [run, ← List.append_assoc]
    exact ih (h.next ho c)

end Layout

/-- Each list of a laid out script starts a line, right after as many indentations as lists are
open before it. -/
theorem lists_start_lines {o : Layout} (ho : o.Plain) {code : String}
    (h : (prettyWith o code).toList = before ++ '(' :: after) (hm : modeAfter before = .code) :
    ∃ front, before = front ++ copies (openLists before) o.indent.toList ∧ StartsLine front := by
  have hindented := Layout.laid_nil.indented_run ho code.toList
  rw [prettyWith, String.toList_ofList] at h
  exact hindented before after h hm

/-- A list after an unbalanced end, an escaped line break and a string over two lines, before one
that a comment and a no-break space precede. -/
theorem lists_start_lines_tabbed :
    let o : Layout := ⟨" \t", "\r\n"⟩
    let code := ")\t(f\\\n(g \"(\n\"(h)) ; (\r\u00a0(k))\n  (l\n \t;(\n(m"
    let before := ")\t\r\n(f\\\n\r\n \t(g \"(\n\"\r\n \t \t"
    let after := "h)) ; (\r\u00a0\r\n \t(k))\n(l\n;(\n \t(m"
    o.Plain ∧ (prettyWith o code).toList = before.toList ++ '(' :: after.toList ∧
      modeAfter before.toList = .code ∧ openLists before.toList = 2 ∧
      ∃ front, before.toList = front ++ copies 2 o.indent.toList ∧ StartsLine front := by
  intro o code before after
  have ho : o.Plain := by decide
  have htext : (prettyWith o code).toList = before.toList ++ '(' :: after.toList := by
    decide +kernel
  have hmode : modeAfter before.toList = .code := by decide
  have hdepth : openLists before.toList = 2 := by decide
  have hlist := lists_start_lines ho htext hmode
  rw [hdepth] at hlist
  exact ⟨ho, htext, hmode, hdepth, hlist⟩

/-! ## Laying out twice -/

namespace Layout

variable {o : Layout} {k : Cursor}

theorem run_indent (o : Layout) (h : ∀ c ∈ text, c = ' ' ∨ c = '\t') (cs : List Char) :
    o.run ⟨.code, d, true⟩ (text ++ cs) = o.run ⟨.code, d, true⟩ cs := by
  induction text with
  | nil => rfl
  | cons c text ih =>
    obtain ⟨hc, h⟩ := List.forall_mem_cons.mp h
    rw [List.cons_append, run_drop o hc, ih h]

/-- Line breaks are kept, and the next line is fresh. -/
theorem run_breaks (o : Layout) (h : ∀ c ∈ text, isBreak c = true) (cs : List Char) :
    o.run ⟨.code, d, f⟩ (text ++ cs) = text ++ o.run ⟨.code, d, f || !text.isEmpty⟩ cs := by
  induction text generalizing f with
  | nil => simp
  | cons c text ih =>
    obtain ⟨hc, h⟩ := List.forall_mem_cons.mp h
    have hopen : c ≠ '(' := by rintro rfl; cases hc
    have hspace : ¬(c = ' ' ∨ c = '\t') := by rintro (rfl | rfl) <;> cases hc
    have hblank := isBlank_of_isBreak hc
    have hnext : Cursor.next ⟨.code, d, f⟩ c = ⟨.code, d, true⟩ := by
      rw [Cursor.next, Mode.next_code (.inl hblank), Cursor.depthAfter_of_isBlank hblank]
      simp [Cursor.freshAfter, hc]
    rw [List.cons_append, run_keep o hopen fun h => absurd h hspace, hnext, ih h]
    simp

/-- What is put before a list is put there again, and nothing else. -/
theorem Plain.run_lead (ho : o.Plain) (cs : List Char) :
    o.run ⟨.code, d, f⟩ (o.lead ⟨.code, d, f⟩ ++ '(' :: cs) =
      o.lead ⟨.code, d, f⟩ ++ '(' :: o.run ⟨.code, d + 1, false⟩ cs := by
  have hindent : ∀ c ∈ copies d o.indent.toList, c = ' ' ∨ c = '\t' :=
    fun c hc => ho.indent c (mem_of_mem_copies hc)
  cases f with
  | true => exact (run_indent o hindent _).trans (run_open o)
  | false =>
    have hnewline : (false || !o.newline.toList.isEmpty) = true := by simpa using ho.newline_ne
    rw [lead, if_neg Bool.false_ne_true, List.append_assoc, run_breaks o ho.newline, hnewline,
      run_indent o hindent, run_open, List.append_assoc]
    rfl

theorem Plain.run_run (ho : o.Plain) (k : Cursor) (cs : List Char) :
    o.run k (o.run k cs) = o.run k cs := by
  induction cs generalizing k with
  | nil => rfl
  | cons c cs ih =>
    obtain ⟨m, d, f⟩ := k
    by_cases hm : m = .code
    · subst hm
      by_cases hopen : c = '('
      · subst hopen
        rw [run_open, ho.run_lead, ih]
      by_cases hdrop : (c = ' ' ∨ c = '\t') ∧ f = true
      · obtain ⟨hc, rfl⟩ := hdrop
        rw [run_drop o hc, ih]
      · have hkeep : (c = ' ' ∨ c = '\t') → f = false := by simpa using hdrop
        rw [run_keep o hopen hkeep, run_keep o hopen hkeep, ih]
    · rw [o.run_of_ne_code hm, o.run_of_ne_code hm, ih]

/-- A line feed at the end of a script is kept. -/
theorem run_concat_feed (o : Layout) (k : Cursor) (cs : List Char) :
    o.run k (cs ++ ['\n']) = o.run k cs ++ ['\n'] := by
  induction cs generalizing k with
  | nil =>
    obtain ⟨m, d, f⟩ := k
    cases m <;> simp [run, emit]
  | cons c cs ih => rw [List.cons_append, run, run, ih, List.append_assoc]

end Layout

theorem prettyWith_prettyWith {o : Layout} (ho : o.Plain) (code : String) :
    prettyWith o (prettyWith o code) = prettyWith o code := by
  rw [prettyWith, prettyWith, String.toList_ofList, ho.run_run]

theorem prettyWith_append_feed (o : Layout) (code : String) :
    prettyWith o (code ++ "\n") = prettyWith o code ++ "\n" := by
  rw [prettyWith, String.toList_append, String.toList_ofList, o.run_concat_feed,
    String.ofList_append]
  rfl

end LispBridge.Format
