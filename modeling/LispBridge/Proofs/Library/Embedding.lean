import LispBridge.Proofs.Library.Block

/-!
# Reading an embedded block back

`strip` removes closed blocks and keeps the lines of a block that is never closed, all but the
first. `Reopens` says that one of these holds the opening sentinel again. Such a line follows the
new block and leaves a block open, so that nothing is read back; without one, `parseBlock` gives
exactly the entries that were embedded (`parseBlock_embedBlock_iff`).
-/

namespace LispBridge.Library

open Chars

variable {ls : List (List Char)} {es : List Entry}

/-! ## Closed and unclosed blocks -/

/-- Lines whose blocks are all closed. -/
inductive Closed : List (List Char) → Prop
  | nil : Closed []
  | plain {l ls} : opens l = false → Closed ls → Closed (l :: ls)
  | block {first last : List Char} {body ls} : opens first = true → (∀ l ∈ body, closes l = false) →
      closes last = true → Closed ls → Closed (first :: (body ++ last :: ls))

/-- The lines `after` are those of a block that is never closed. -/
def Unclosed (ls after : List (List Char)) : Prop :=
  ∃ before first, ls = before ++ first :: after ∧ Closed before ∧ opens first = true ∧
    ∀ l ∈ after, closes l = false

/-- A block that is never closed holds another opening line. -/
def Reopens (ls : List (List Char)) : Prop :=
  ∃ after, Unclosed ls after ∧ ∃ l ∈ after, opens l = true

theorem Unclosed.plain {after : List (List Char)} {l : List Char} (h : Unclosed ls after)
    (hl : opens l = false) : Unclosed (l :: ls) after := by
  obtain ⟨before, first, rfl, hbefore, hrest⟩ := h
  exact ⟨l :: before, first, rfl, .plain hl hbefore, hrest⟩

theorem Unclosed.block {after body : List (List Char)} {first last : List Char}
    (h : Unclosed ls after) (hfirst : opens first = true) (hbody : ∀ l ∈ body, closes l = false)
    (hlast : closes last = true) : Unclosed (first :: (body ++ last :: ls)) after := by
  obtain ⟨before, first', rfl, hbefore, hrest⟩ := h
  exact ⟨first :: (body ++ last :: before), first', by simp, .block hfirst hbody hlast hbefore,
    hrest⟩

theorem closed_or_unclosed (ls : List (List Char)) : Closed ls ∨ ∃ after, Unclosed ls after := by
  -- Along with the lines themselves, look at them as the lines after an opening one.
  suffices h : (Closed ls ∨ ∃ after, Unclosed ls after) ∧
      ((∀ l ∈ ls, closes l = false) ∨ ∃ body last rest, ls = body ++ last :: rest ∧
        (∀ l ∈ body, closes l = false) ∧ closes last = true ∧
        (Closed rest ∨ ∃ after, Unclosed rest after)) from h.1
  induction ls with
  | nil => exact ⟨.inl .nil, .inl (by simp)⟩
  | cons l ls ih =>
    obtain ⟨hplain, hinside⟩ := ih
    constructor
    · cases hl : opens l with
      | false => exact hplain.imp (.plain hl) fun ⟨after, h⟩ => ⟨after, h.plain hl⟩
      | true =>
        rcases hinside with hnone | ⟨body, last, rest, rfl, hbody, hlast, hrest⟩
        · exact .inr ⟨ls, [], l, rfl, .nil, hl, hnone⟩
        · exact hrest.imp (.block hl hbody hlast) fun ⟨after, h⟩ => ⟨after, h.block hl hbody hlast⟩
    · cases hl : closes l with
      | true => exact .inr ⟨[], l, ls, rfl, by simp, hl, hplain⟩
      | false =>
        refine hinside.imp (List.forall_mem_cons.mpr ⟨hl, ·⟩) ?_
        rintro ⟨body, last, rest, rfl, hbody, hlast, hrest⟩
        exact ⟨l :: body, last, rest, rfl, List.forall_mem_cons.mpr ⟨hl, hbody⟩, hlast, hrest⟩

/-! ## Stripping -/

theorem strip_block {body : List (List Char)} {last : List Char}
    (hbody : ∀ l ∈ body, closes l = false) (hlast : closes last = true)
    (held ls : List (List Char)) :
    strip (some held) (body ++ last :: ls) = strip none ls := by
  induction body generalizing held with
  | nil => rw [List.nil_append, strip, if_pos hlast]
  | cons l body ih =>
    obtain ⟨hl, hbody⟩ := List.forall_mem_cons.mp hbody
    rw [List.cons_append, strip, if_neg (by simp [hl]), ih hbody]

theorem strip_held {after : List (List Char)} (h : ∀ l ∈ after, closes l = false)
    (held : List (List Char)) : strip (some held) after = held.reverse ++ after := by
  induction after generalizing held with
  | nil => rw [strip, List.append_nil]
  | cons l after ih =>
    obtain ⟨hl, h⟩ := List.forall_mem_cons.mp h
    rw [strip, if_neg (by simp [hl]), ih h, List.reverse_cons, List.append_assoc]
    rfl

theorem Closed.strip_append (h : Closed ls) (ls' : List (List Char)) :
    strip none (ls ++ ls') = strip none ls ++ strip none ls' := by
  induction h with
  | nil => rfl
  | plain hl _ ih =>
    rw [List.cons_append, strip, strip, if_neg (by simp [hl]), if_neg (by simp [hl]), ih]
    rfl
  | block hfirst hbody hlast _ ih =>
    rw [List.cons_append, List.append_assoc, List.cons_append, strip, if_pos hfirst, strip,
      if_pos hfirst, strip_block hbody hlast, strip_block hbody hlast, ih]

/-- No opening line remains where all blocks are closed. -/
theorem Closed.not_opens (h : Closed ls) : ∀ l ∈ strip none ls, opens l = false := by
  induction h with
  | nil => simp [strip]
  | plain hl _ ih =>
    rw [strip, if_neg (by simp [hl])]
    exact List.forall_mem_cons.mpr ⟨hl, ih⟩
  | block hfirst hbody hlast _ ih => rwa [strip, if_pos hfirst, strip_block hbody hlast]

theorem strip_sublist (held : Option (List (List Char))) (ls : List (List Char)) :
    (strip held ls).Sublist ((held.getD []).reverse ++ ls) := by
  induction ls generalizing held with
  | nil => cases held <;> simp [strip]
  | cons l ls ih =>
    cases held with
    | none =>
      rw [strip]
      split
      · exact (ih (some [])).trans (List.sublist_cons_self ..)
      · exact (ih none).cons_cons l
    | some held =>
      rw [strip]
      split
      · exact ((ih none).trans (List.sublist_cons_self ..)).trans (List.sublist_append_right ..)
      · simpa using ih (some (l :: held))

theorem Unclosed.strip_eq {after : List (List Char)} (h : Unclosed ls after) :
    ∃ front, strip none ls = front ++ after ∧ ∀ l ∈ front, opens l = false := by
  obtain ⟨before, first, rfl, hbefore, hfirst, hafter⟩ := h
  refine ⟨strip none before, ?_, hbefore.not_opens⟩
  rw [hbefore.strip_append, strip, if_pos hfirst, strip_held hafter]
  rfl

/-- What an unclosed block holds is all that can open a block in a stripped script. -/
theorem exists_opens_strip_iff : (∃ l ∈ strip none ls, opens l = true) ↔ Reopens ls := by
  constructor
  · rintro ⟨l, hl, hopens⟩
    rcases closed_or_unclosed ls with hclosed | ⟨after, hafter⟩
    · rw [hclosed.not_opens l hl] at hopens
      cases hopens
    · obtain ⟨front, hstrip, hfront⟩ := hafter.strip_eq
      rw [hstrip] at hl
      rcases List.mem_append.mp hl with hl | hl
      · rw [hfront l hl] at hopens
        cases hopens
      · exact ⟨after, hafter, l, hl, hopens⟩
  · rintro ⟨after, hafter, l, hl, hopens⟩
    obtain ⟨front, hstrip, -⟩ := hafter.strip_eq
    exact ⟨l, hstrip ▸ List.mem_append_right front hl, hopens⟩

/-! ## Scanning what remains -/

theorem scan_strip_of_not_reopens (h : ¬Reopens ls) :
    scan false ((strip none ls).map chomp) = (false, []) := by
  refine scan_of_not_opens ?_
  rw [List.forall_mem_map]
  intro l hl
  rw [opens_chomp]
  exact Bool.eq_false_iff.mpr fun hopens => h (exists_opens_strip_iff.mp ⟨l, hl, hopens⟩)

theorem scan_strip_of_reopens (h : Reopens ls) :
    (scan false ((strip none ls).map chomp)).1 = true := by
  obtain ⟨after, hafter, l, hl, hopens⟩ := h
  obtain ⟨front, hstrip, -⟩ := hafter.strip_eq
  obtain ⟨before, first, -, -, -, hcloses⟩ := hafter
  have hchomped : ∀ l ∈ after.map chomp, closes l = false := by simpa [closes_chomp] using hcloses
  rw [hstrip, List.map_append, scan_append, scan_fst_of_not_closes hchomped, Bool.or_eq_true,
    List.any_eq_true]
  refine .inr ⟨chomp l, List.mem_map_of_mem hl, ?_⟩
  rw [opens_chomp, hopens]

/-- Outside of blocks empty lines mean nothing. -/
theorem scan_dropWhile (ls : List (List Char)) :
    scan false ((ls.dropWhile (· = ['\n'])).map chomp) = scan false (ls.map chomp) := by
  induction ls with
  | nil => rfl
  | cons l ls ih =>
    by_cases hl : l = ['\n']
    · subst hl
      rw [List.dropWhile_cons_of_pos (by simp), ih]
      rfl
    · rw [List.dropWhile_cons_of_neg (by simpa using hl)]

theorem dropWhile_stripBlocks (source : List Char) :
    (stripBlocks source).dropWhile (· = '\n') =
      ((strip none (linesWithEnds source)).dropWhile (· = ['\n'])).flatten :=
  ((lined_linesWithEnds source).sublist (strip_sublist none _)).dropWhile_flatten

theorem linesWithEnds_stripBlocks (source : List Char) :
    linesWithEnds ((stripBlocks source).dropWhile (· = '\n')) =
      (strip none (linesWithEnds source)).dropWhile (· = ['\n']) := by
  have hlined : Lined (strip none (linesWithEnds source)) :=
    (lined_linesWithEnds source).sublist (strip_sublist none _)
  have hrest := hlined.sublist (List.dropWhile_sublist (· = ['\n']))
  rw [dropWhile_stripBlocks, hrest.linesWithEnds_flatten]

/-! ## Embedding -/

theorem scan_embedBlock (source : String) (hes : ∀ e ∈ es, e.WellFormed) :
    scan false (lines (embedBlock source es).toList) =
      ((scan false ((strip none (linesWithEnds source.toList)).map chomp)).1,
        es ++ (scan false ((strip none (linesWithEnds source.toList)).map chomp)).2) := by
  rw [embedBlock, String.toList_append, String.toList_ofList, scan_renderBlock_append hes, lines,
    linesWithEnds_stripBlocks, scan_dropWhile]

theorem parseBlock_embedBlock_of_not_reopens {source : String} (hes : ∀ e ∈ es, e.WellFormed)
    (h : ¬Reopens (linesWithEnds source.toList)) : parseBlock (embedBlock source es) = es := by
  rw [parseBlock, scan_embedBlock source hes, scan_strip_of_not_reopens h]
  simp

theorem parseBlock_embedBlock_of_reopens {source : String} (hes : ∀ e ∈ es, e.WellFormed)
    (h : Reopens (linesWithEnds source.toList)) : parseBlock (embedBlock source es) = [] := by
  rw [parseBlock, scan_embedBlock source hes, scan_strip_of_reopens h]
  rfl

/-- Embedded entries are read back, and reach the interpreter after the predefined ones, unless the
script has an unclosed block that opens again. -/
theorem parseBlock_embedBlock_iff (source : String) (hes : ∀ e ∈ es, e.WellFormed) :
    (parseBlock (embedBlock source es) = es ∧
      buildLibrary (embedBlock source es) = renderWire (predefined ++ es)) ↔
    es = [] ∨ ¬Reopens (linesWithEnds source.toList) := by
  constructor
  · rintro ⟨hparse, -⟩
    by_cases h : Reopens (linesWithEnds source.toList)
    · rw [parseBlock_embedBlock_of_reopens hes h] at hparse
      exact .inl hparse.symm
    · exact .inr h
  · intro h
    have hparse : parseBlock (embedBlock source es) = es := by
      by_cases hreopens : Reopens (linesWithEnds source.toList)
      · rw [parseBlock_embedBlock_of_reopens hes hreopens, h.resolve_right (not_not_intro hreopens)]
      · exact parseBlock_embedBlock_of_not_reopens hes hreopens
    exact ⟨hparse, by rw [buildLibrary, fullLibrary, hparse]⟩

/-- A script of two opening lines. -/
def openedTwice : String := "begin-user-library\nbegin-user-library\n"

theorem reopens_openedTwice : Reopens (linesWithEnds openedTwice.toList) := by
  let line := "begin-user-library\n".toList
  have hlines : linesWithEnds openedTwice.toList = [line, line] := by decide
  have hopens : opens line = true := by decide
  have hcloses : closes line = false := by decide
  rw [hlines]
  exact ⟨[line], ⟨[], line, rfl, .nil, hopens, by simpa using hcloses⟩, line, by simp, hopens⟩

/-- Of two opening lines the second swallows the new block. -/
theorem not_parseBlock_embedBlock : ¬∀ (source : String) (es : List Entry),
    (∀ e ∈ es, e.WellFormed) → parseBlock (embedBlock source es) = es := by
  intro h
  have hes : ∀ e ∈ [(⟨"f", []⟩ : Entry)], e.WellFormed := by decide
  have hback := h openedTwice _ hes
  rw [parseBlock_embedBlock_of_reopens hes reopens_openedTwice] at hback
  cases hback

/-- An entry that is embedded there is not read back. -/
theorem not_parseBlock_embedBlock_openedTwice :
    (∀ e ∈ [(⟨"f", []⟩ : Entry)], e.WellFormed) ∧
    ¬(parseBlock (embedBlock openedTwice [⟨"f", []⟩]) = [⟨"f", []⟩] ∧
      buildLibrary (embedBlock openedTwice [⟨"f", []⟩]) = renderWire (predefined ++ [⟨"f", []⟩])) := by
  have hes : ∀ e ∈ [(⟨"f", []⟩ : Entry)], e.WellFormed := by decide
  refine ⟨hes, fun hback => ?_⟩
  rcases (parseBlock_embedBlock_iff openedTwice hes).mp hback with hnil | hnot
  · cases hnil
  · exact hnot reopens_openedTwice

end LispBridge.Library
