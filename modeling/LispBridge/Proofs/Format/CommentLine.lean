import LispBridge.Proofs.Format.Squeeze

/-!
# Lines without code

A squeeze that comes to a blank line or to a comment line in code passes over it and is left with a
gap (`Squeeze.exists_passes`). A gap that is there already, or that nothing written stands before,
makes no difference to what follows (`Squeeze.Alike.run`); at the start of a line there is no other
(`StartsLine.atStart`). `Remark` lines are left as they are by a layout too (`Layout.run_remarks`).
-/

namespace LispBridge.Format

open Chars

/-- The mode of a scan after a text. -/
def modeAfter (cs : List Char) : Mode := cs.foldl Mode.next .code

/-- A line starts after this text: it is empty, or it ends in a line break that no backslash escapes
and that is not part of a string. -/
def StartsLine (cs : List Char) : Prop :=
  ∀ c ∈ cs.getLast?, isBreak c = true ∧
    (modeAfter cs.dropLast = .code ∨ modeAfter cs.dropLast = .comment)

instance : DecidablePred StartsLine := fun cs =>
  match h : cs.getLast? with
  | none => isTrue (by simp [StartsLine, h])
  | some c => decidable_of_iff (isBreak c = true ∧
      (modeAfter cs.dropLast = .code ∨ modeAfter cs.dropLast = .comment)) (by simp [StartsLine, h])

def IsBlankLine (line : List Char) : Prop := ∀ c ∈ line, isBlank c = true

instance : DecidablePred IsBlankLine := fun line =>
  decidable_of_iff (line.all isBlank = true) List.all_eq_true

/-- Only blanks stand before the semicolon, and the comment lasts to the end of the line. -/
def IsCommentLine (line : List Char) : Prop :=
  (trimStart line).head? = some ';' ∧ '\r' ∉ chomp line

instance : DecidablePred IsCommentLine := fun _ => inferInstanceAs (Decidable (_ ∧ _))

/-- A line that is empty or starts with a semicolon, and ends with a line feed. -/
structure Remark (line : List Char) : Prop where
  ends : line.getLast? = some '\n'
  breaks : ∀ c ∈ line.dropLast, isBreak c = false
  starts : ∀ c ∈ line.dropLast.head?, c = ';'

theorem remark_iff {line : List Char} : Remark line ↔ line.getLast? = some '\n' ∧
    (line.dropLast.all (!isBreak ·)) = true ∧
      (line.dropLast.head? = none ∨ line.dropLast.head? = some ';') := by
  have hbreaks : (line.dropLast.all (!isBreak ·)) = true ↔
      ∀ c ∈ line.dropLast, isBreak c = false := by simp
  have hstarts : (line.dropLast.head? = none ∨ line.dropLast.head? = some ';') ↔
      ∀ c ∈ line.dropLast.head?, c = ';' := by
    cases line.dropLast.head? <;> simp [eq_comm]
  rw [hbreaks, hstarts]
  exact ⟨fun ⟨he, hb, hs⟩ => ⟨he, hb, hs⟩, fun ⟨he, hb, hs⟩ => ⟨he, hb, hs⟩⟩

instance : DecidablePred Remark := fun _ => decidable_of_iff _ remark_iff.symm

variable {line text : List Char} {ls : List (List Char)}

theorem not_isBreak_of_mem (hfeed : '\n' ∉ text) (hreturn : '\r' ∉ text) :
    ∀ c ∈ text, isBreak c = false := by
  intro c hc
  have hne : c ≠ '\n' ∧ c ≠ '\r' :=
    ⟨fun heq => hfeed (heq ▸ hc), fun heq => hreturn (heq ▸ hc)⟩
  simp [isBreak, hne]

theorem Remark.eq_or (h : Remark line) :
    line = ['\n'] ∨ ∃ text, line = ';' :: (text ++ ['\n']) ∧ ∀ c ∈ text, isBreak c = false := by
  obtain ⟨front, rfl⟩ := List.getLast?_eq_some_iff.mp h.ends
  have hbreaks := h.breaks
  have hstarts := h.starts
  rw [List.dropLast_concat] at hbreaks hstarts
  cases front with
  | nil => exact .inl rfl
  | cons c text =>
    obtain rfl : c = ';' := hstarts c rfl
    exact .inr ⟨text, rfl, (List.forall_mem_cons.mp hbreaks).2⟩

/-- A comment line taken apart. -/
theorem IsCommentLine.exists_eq (h : IsCommentLine line) (hfeed : '\n' ∉ chomp line) :
    ∃ blanks text ending, line = blanks ++ (';' :: text ++ ending) ∧
      (∀ c ∈ blanks, isBlank c = true) ∧ (∀ c ∈ text, isBreak c = false) ∧
      (ending = [] ∨ ending = ['\n'] ∨ ending = ['\r', '\n']) := by
  obtain ⟨hhead, hreturn⟩ := h
  obtain ⟨ending, hline, hending⟩ := exists_chomp_append line
  have hblank : trimStart ending = [] := by rcases hending with rfl | rfl | rfl <;> rfl
  have htrim : (trimStart (chomp line)).head? = some ';' := by
    rw [hline, trimStart, List.dropWhile_append] at hhead
    split at hhead
    · rw [← trimStart, hblank] at hhead
      cases hhead
    · next hne => rwa [List.head?_append_of_ne_nil _ (by simpa using hne)] at hhead
  obtain ⟨text, htext⟩ : ∃ text, trimStart (chomp line) = ';' :: text :=
    List.head?_eq_some_iff.mp htrim
  have hsplit : chomp line = (chomp line).takeWhile isBlank ++ ';' :: text := by
    rw [← htext, trimStart, List.takeWhile_append_dropWhile]
  refine ⟨(chomp line).takeWhile isBlank, text, ending, ?_, fun c => List.mem_takeWhile_imp, ?_,
    hending⟩
  · rw [← List.append_assoc, ← hsplit, ← hline]
  · intro c hc
    refine not_isBreak_of_mem hfeed hreturn c ?_
    rw [hsplit]
    exact List.mem_append_right _ (List.mem_cons_of_mem _ hc)

namespace Squeeze

variable {k k' k'' : Squeeze} {l : Option Char} {g g' : Bool} {c : Char} {cs cs' : List Char}

/-! ## What a squeeze passes over -/

/-- The state after a text. -/
def after (k : Squeeze) (cs : List Char) : Squeeze := cs.foldl next k

theorem after_append (k : Squeeze) (cs cs' : List Char) :
    k.after (cs ++ cs') = (k.after cs).after cs' := List.foldl_append

theorem run_append (k : Squeeze) (cs cs' : List Char) :
    k.run (cs ++ cs') = k.run cs ++ (k.after cs).run cs' := by
  induction cs generalizing k with
  | nil => rfl
  | cons c cs ih =>
    rw [List.cons_append, run, run, ih, List.append_assoc]
    rfl

/-- Nothing is written of a text, and this is the state after it. -/
structure Passes (k : Squeeze) (cs : List Char) (k' : Squeeze) : Prop where
  run : k.run cs = []
  after : k.after cs = k'

theorem Passes.append (h : k.Passes cs k') (h' : k'.Passes cs' k'') :
    k.Passes (cs ++ cs') k'' := by
  refine ⟨?_, ?_⟩
  · rw [run_append, h.run, h.after, h'.run, List.append_nil]
  · rw [after_append, h.after, h'.after]

theorem Passes.run_append (h : k.Passes cs k') (cs' : List Char) :
    k.run (cs ++ cs') = k'.run cs' := by
  rw [Squeeze.run_append, h.run, h.after, List.nil_append]

theorem passes_singleton (hskip : k.skips c = true) (hnext : k.next c = k') : k.Passes [c] k' :=
  ⟨by rw [Squeeze.run, emit, if_pos hskip]; rfl, hnext⟩

theorem passes_semicolon : Passes ⟨.code, l, g⟩ [';'] ⟨.comment, l, g⟩ := by
  refine passes_singleton rfl ?_
  have hblank : isBlank ';' = false := by decide
  simp [next, skips, opensGap, Mode.next, hblank]

theorem passes_blank (hc : isBlank c = true) : Passes ⟨.code, l, g⟩ [c] ⟨.code, l, true⟩ := by
  have hskip : skips ⟨.code, l, g⟩ c = true := by simp [skips, hc]
  refine passes_singleton hskip ?_
  simp [next, hskip, opensGap, hc, Mode.next_code (.inl hc)]

theorem passes_blanks (h : ∀ c ∈ cs, isBlank c = true) :
    Passes ⟨.code, l, g⟩ cs ⟨.code, l, g || !cs.isEmpty⟩ := by
  induction cs generalizing g with
  | nil => exact ⟨rfl, by simp [after]⟩
  | cons c cs ih =>
    obtain ⟨hc, h⟩ := List.forall_mem_cons.mp h
    simpa using (passes_blank hc).append (ih (g := true) h)

theorem passes_comment (h : ∀ c ∈ text, isBreak c = false) :
    Passes ⟨.comment, l, g⟩ text ⟨.comment, l, g⟩ := by
  induction text with
  | nil => exact ⟨rfl, rfl⟩
  | cons c text ih =>
    obtain ⟨hc, h⟩ := List.forall_mem_cons.mp h
    have hfirst : Passes ⟨.comment, l, g⟩ [c] ⟨.comment, l, g⟩ :=
      passes_singleton rfl (by simp [next, skips, opensGap, Mode.next, hc])
    exact hfirst.append (ih h)

theorem passes_break (hc : isBreak c = true) :
    Passes ⟨.comment, l, g⟩ [c] ⟨.code, l, true⟩ :=
  passes_singleton rfl (by simp [next, skips, opensGap, Mode.next, hc])

theorem passes_remark (h : Remark line) : Passes ⟨.code, l, g⟩ line ⟨.code, l, true⟩ := by
  rcases h.eq_or with rfl | ⟨text, rfl, htext⟩
  · exact passes_blank (by decide)
  · exact passes_semicolon.append ((passes_comment htext).append (passes_break rfl))

theorem passes_remarks (h : ∀ line ∈ ls, Remark line) :
    Passes ⟨.code, l, g⟩ ls.flatten ⟨.code, l, g || !ls.isEmpty⟩ := by
  induction ls generalizing g with
  | nil => exact ⟨rfl, by simp [after]⟩
  | cons line ls ih =>
    obtain ⟨hline, h⟩ := List.forall_mem_cons.mp h
    simpa using (passes_remark hline).append (ih (g := true) h)

/-- A line without code is passed over; after its end there is a gap. -/
theorem exists_passes (h : IsBlankLine line ∨ IsCommentLine line) (hfeed : '\n' ∉ chomp line) :
    ∃ k', Passes ⟨.code, l, g⟩ line k' ∧ (line.getLast? = some '\n' → k' = ⟨.code, l, true⟩) := by
  rcases h with hblank | hcomment
  · refine ⟨_, passes_blanks hblank, fun hlast => ?_⟩
    have hne : line ≠ [] := by rintro rfl; cases hlast
    simp [hne]
  obtain ⟨blanks, text, ending, rfl, hblanks, htext, hending⟩ := hcomment.exists_eq hfeed
  have hfront : Passes ⟨.code, l, g⟩ (blanks ++ ';' :: text) ⟨.comment, l, g || !blanks.isEmpty⟩ :=
    (passes_blanks hblanks).append (passes_semicolon.append (passes_comment htext))
  rw [← List.append_assoc]
  rcases hending with rfl | rfl | rfl
  · rw [List.append_nil]
    refine ⟨_, hfront, fun hlast => ?_⟩
    rw [List.getLast?_append_cons] at hlast
    rcases List.mem_cons.mp (List.mem_of_getLast? hlast) with heq | hmem
    · cases heq
    · cases htext _ hmem
  · exact ⟨_, hfront.append (passes_break rfl), fun _ => rfl⟩
  · have hreturn : Passes ⟨.comment, l, g || !blanks.isEmpty⟩ ['\r', '\n'] ⟨.code, l, true⟩ :=
      (passes_break rfl).append (passes_blank (by decide))
    exact ⟨_, hfront.append hreturn, fun _ => rfl⟩

/-! ## States that a gap does not tell apart -/

/-- States with the same mode and the same character written last. A gap before anything is written
makes no difference. -/
structure Alike (k k' : Squeeze) : Prop where
  mode : k.mode = k'.mode
  last : k.last = k'.last
  gap : k.gap = k'.gap ∨ k.last = none

theorem Alike.trans (h : k.Alike k') (h' : k'.Alike k'') : k.Alike k'' := by
  refine ⟨h.mode.trans h'.mode, h.last.trans h'.last, ?_⟩
  rcases h.gap with hgap | hnone
  · exact h'.gap.imp hgap.trans h.last.trans
  · exact .inr hnone

theorem Alike.skips_eq (h : k.Alike k') (c : Char) : k.skips c = k'.skips c := by
  rw [skips, skips, h.mode]

theorem Alike.emit_eq (h : k.Alike k') (c : Char) : k.emit c = k'.emit c := by
  have hspace : k.spaceBefore c = k'.spaceBefore c := by
    rw [spaceBefore, spaceBefore, ← h.last]
    rcases h.gap with hgap | hnone
    · rw [hgap]
    · rw [hnone, Bool.and_false, Bool.and_false]
  rw [emit, emit, h.skips_eq, hspace]

theorem Alike.next (h : k.Alike k') (c : Char) : (k.next c).Alike (k'.next c) := by
  have hgap : k.opensGap c = k'.opensGap c := by rw [opensGap, opensGap, h.mode]
  rw [Squeeze.next, Squeeze.next, ← h.skips_eq, ← h.mode, ← hgap]
  split
  · exact ⟨rfl, h.last, h.gap.imp_left fun heq => by rw [heq]⟩
  · exact ⟨rfl, rfl, .inl rfl⟩

theorem Alike.after (h : k.Alike k') (cs : List Char) : (k.after cs).Alike (k'.after cs) := by
  induction cs generalizing k k' with
  | nil => exact h
  | cons c cs ih => exact ih (h.next c)

theorem Alike.run (h : k.Alike k') (cs : List Char) : k.run cs = k'.run cs := by
  induction cs generalizing k k' with
  | nil => rfl
  | cons c cs ih => rw [Squeeze.run, Squeeze.run, h.emit_eq, ih (h.next c)]

/-- What is passed over before anything is written makes no difference. -/
theorem Passes.run_append_of_none (h : Passes ⟨.code, none, g⟩ cs ⟨.code, none, g'⟩)
    (cs' : List Char) :
    Squeeze.run ⟨.code, none, g⟩ (cs ++ cs') = Squeeze.run ⟨.code, none, g⟩ cs' := by
  have halike : Alike ⟨.code, none, g'⟩ ⟨.code, none, g⟩ := ⟨rfl, rfl, .inr rfl⟩
  rw [h.run_append, halike.run]

theorem run_dropWhile (cs : List Char) :
    run {} (cs.dropWhile (· = '\n')) = run {} cs := by
  have hfeeds : ∀ c ∈ cs.takeWhile (· = '\n'), isBlank c = true := by
    intro c hc
    obtain rfl : c = '\n' := by simpa using List.mem_takeWhile_imp hc
    decide
  calc run {} (cs.dropWhile (· = '\n'))
    _ = run {} (cs.takeWhile (· = '\n') ++ cs.dropWhile (· = '\n')) :=
        ((passes_blanks hfeeds).run_append_of_none _).symm
    _ = run {} cs := by rw [List.takeWhile_append_dropWhile]

/-- A squeeze in code, where a further gap would make no difference. -/
structure AtStart (k : Squeeze) : Prop where
  mode : k.mode = .code
  gap : k.gap = true ∨ k.last = none

theorem AtStart.alike (h : k.AtStart) : Alike ⟨.code, k.last, true⟩ k :=
  ⟨h.mode.symm, rfl, h.gap.imp_left Eq.symm⟩

/-- A line without code is passed over where a line starts. -/
theorem AtStart.exists_passes (h : k.AtStart) (hline : IsBlankLine line ∨ IsCommentLine line)
    (hfeed : '\n' ∉ chomp line) :
    ∃ k', k.Passes line k' ∧ (line.getLast? = some '\n' → k' = ⟨.code, k.last, true⟩) := by
  obtain ⟨m, l, g⟩ := k
  obtain rfl : m = .code := h.mode
  exact Squeeze.exists_passes hline hfeed

theorem mode_after (k : Squeeze) (cs : List Char) :
    (k.after cs).mode = cs.foldl Mode.next k.mode := by
  induction cs generalizing k with
  | nil => rfl
  | cons c cs ih => rw [after, List.foldl_cons, ← after, ih, mode_next, List.foldl_cons]

end Squeeze

theorem StartsLine.atStart {cs : List Char} (h : StartsLine cs) :
    (Squeeze.after {} cs).AtStart := by
  rcases List.eq_nil_or_concat' cs with rfl | ⟨text, c, rfl⟩
  · exact ⟨rfl, .inr rfl⟩
  obtain ⟨hbreak, hmode⟩ := h c List.getLast?_concat
  rw [List.dropLast_concat] at hmode
  have hblank := isBlank_of_isBreak hbreak
  have hbefore : (Squeeze.after {} text).mode = modeAfter text := Squeeze.mode_after {} text
  rw [Squeeze.after_append]
  generalize Squeeze.after {} text = k at hbefore
  obtain ⟨_, l, g⟩ := k
  obtain rfl : _ = modeAfter text := hbefore
  rcases hmode with hmode | hmode <;> rw [hmode]
  · rw [(Squeeze.passes_blank hblank).after]
    exact ⟨rfl, .inl rfl⟩
  · rw [(Squeeze.passes_break hbreak).after]
    exact ⟨rfl, .inl rfl⟩

/-! ## Layouts -/

namespace Layout

variable (o : Layout) {d : Nat}

/-- A layout leaves a remark that starts a line as it is, and the next line fresh. -/
theorem run_remark (h : Remark line) (cs : List Char) :
    o.run ⟨.code, d, true⟩ (line ++ cs) = line ++ o.run ⟨.code, d, true⟩ cs := by
  have hfeed : ∀ cs, o.run ⟨.code, d, true⟩ ('\n' :: cs) = '\n' :: o.run ⟨.code, d, true⟩ cs := by
    intro cs
    rw [run_keep o (by decide) (by simp)]
    simp [Cursor.next, Mode.next, Cursor.depthAfter, Cursor.freshAfter, isBreak]
  rcases h.eq_or with rfl | ⟨text, rfl, htext⟩
  · exact hfeed cs
  have hrun : ∀ c ∈ text, (!isBreak c) = true := fun c hc => by simp [htext c hc]
  have hrest : ∀ c ∈ ('\n' :: cs).head?, (!isBreak c) = false := by
    intro c hc
    cases hc
    rfl
  rw [List.cons_append, List.append_assoc, List.singleton_append, run_comment_start, run_comment,
    takeWhile_append_eq hrun hrest, dropWhile_append_eq hrun hrest, hfeed]
  simp

theorem run_remarks (h : ∀ line ∈ ls, Remark line) (cs : List Char) :
    o.run ⟨.code, d, true⟩ (ls.flatten ++ cs) = ls.flatten ++ o.run ⟨.code, d, true⟩ cs := by
  induction ls with
  | nil => rfl
  | cons line ls ih =>
    obtain ⟨hline, h⟩ := List.forall_mem_cons.mp h
    rw [List.flatten_cons, List.append_assoc, run_remark o hline, ih h, List.append_assoc]

end Layout

end LispBridge.Format
