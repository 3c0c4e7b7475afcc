import LispBridge.Proofs.Library.Embedding
import Mathlib.Data.List.Basic
import Mathlib.Data.List.Induction

/-!
# How far blocks reach

Where a block ends is decided twice. A strip heeds the closing sentinel alone while a block is open;
a reader takes every line with the opening sentinel to open a block, one with both sentinels among
them. `spots` are the lines of a script, each with those before and after it, and what becomes of
each is said by `Spot.removed` for a strip (`strip_eq_filter`) and by `Spot.inside` for a reader.

No line is lost that a reader takes to be outside (`outside_sublist_strip`). The two agree on all
lines just where no block `RunsOn`, that is, where no line that closes an open block for a strip
opens one for a reader before a line that opens none (`strip_eq_outside_iff`).
-/

namespace LispBridge.Library

open Chars

variable {ls : List (List Char)} {l : List Char}

/-! ## Open blocks -/

/-- Whether a strip has a block open after a line. -/
def openNext (isOpen : Bool) (l : List Char) : Bool := if isOpen then !closes l else opens l

/-- Whether a strip has a block open after these lines. -/
def openAfter (ls : List (List Char)) : Bool := ls.foldl openNext false

/-- Whether a reader has a block open after these lines. -/
def insideAfter (ls : List (List Char)) : Bool := (scan false (ls.map chomp)).1

theorem openAfter_concat (ls : List (List Char)) (l : List Char) :
    openAfter (ls ++ [l]) = if openAfter ls then !closes l else opens l := by
  rw [openAfter, List.foldl_append]
  rfl

theorem insideAfter_concat (ls : List (List Char)) (l : List Char) :
    insideAfter (ls ++ [l]) = (opens l || (!closes l && insideAfter ls)) := by
  rw [insideAfter, List.map_append, scan_append]
  show (scan (insideAfter ls) [chomp l]).1 = _
  rw [scan, opens_chomp, closes_chomp]
  cases opens l <;> cases closes l <;> cases insideAfter ls <;> rfl

theorem foldl_openNext_of_not_closes (h : ∀ l ∈ ls, closes l = false) :
    ls.foldl openNext true = true := by
  induction ls with
  | nil => rfl
  | cons l ls ih =>
    obtain ⟨hl, h⟩ := List.forall_mem_cons.mp h
    have hnext : openNext true l = true := by simp [openNext, hl]
    rw [List.foldl_cons, hnext, ih h]

theorem Closed.openAfter_append (h : Closed ls) (ls' : List (List Char)) :
    openAfter (ls ++ ls') = openAfter ls' := by
  induction h with
  | nil => rfl
  | @plain l _ hl _ ih =>
    have hnext : openNext false l = false := hl
    rw [List.cons_append, openAfter, List.foldl_cons, hnext]
    exact ih
  | @block first last _ _ hfirst hbody hlast _ ih =>
    have hopen : openNext false first = true := hfirst
    have hclose : openNext true last = false := by simp [openNext, hlast]
    rw [List.cons_append, List.append_assoc, List.cons_append, openAfter, List.foldl_cons, hopen,
      List.foldl_append, foldl_openNext_of_not_closes hbody, List.foldl_cons, hclose]
    exact ih

/-- All blocks are closed where a strip ends with no block open. -/
theorem closed_iff : Closed ls ↔ openAfter ls = false := by
  constructor
  · intro h
    rw [← List.append_nil ls, h.openAfter_append]
    rfl
  · intro h
    refine (closed_or_unclosed ls).resolve_right ?_
    rintro ⟨after, before, first, rfl, hbefore, hfirst, hafter⟩
    have hopen : openNext false first = true := hfirst
    rw [hbefore.openAfter_append, openAfter, List.foldl_cons, hopen,
      foldl_openNext_of_not_closes hafter] at h
    cases h

instance : DecidablePred Closed := fun _ => decidable_of_iff _ closed_iff.symm

/-- Where a strip has a block open, a reader has one open too. -/
theorem insideAfter_of_openAfter (h : openAfter ls = true) : insideAfter ls = true := by
  induction ls using List.reverseRecOn with
  | nil => cases h
  | append_singleton ls l ih =>
    rw [openAfter_concat] at h
    rw [insideAfter_concat]
    split at h
    · next hopen => simp_all
    · next hopen => simp [h]

/-! ## Lines and their places -/

/-- A line of a script with the lines around it. -/
structure Spot where
  before : List (List Char)
  line : List Char
  after : List (List Char)
  deriving DecidableEq, Repr

def spotsFrom : List (List Char) → List (List Char) → List Spot
  | _, [] => []
  | before, l :: ls => ⟨before, l, ls⟩ :: spotsFrom (before ++ [l]) ls

/-- The places of all lines, in order. -/
def spots (ls : List (List Char)) : List Spot := spotsFrom [] ls

namespace Spot

/-- Whether a strip removes the line: it opens a block, or stands in one that is closed. -/
def removed (s : Spot) : Bool :=
  if openAfter s.before then (s.line :: s.after).any closes else opens s.line

/-- Whether a reader comes to the line with a block open. -/
def inside (s : Spot) : Bool := insideAfter s.before

/-- Whether a reader comes to the line with no block open, and it opens none. -/
def outside (s : Spot) : Bool := !s.inside && !opens s.line

end Spot

/-- The lines that a reader takes to stand outside of blocks, with their ends. -/
def outside (ls : List (List Char)) : List (List Char) :=
  ((spots ls).filter Spot.outside).map Spot.line

variable {s : Spot}

theorem mem_spotsFrom_iff {before : List (List Char)} :
    s ∈ spotsFrom before ls ↔
      ∃ front, s.before = before ++ front ∧ ls = front ++ s.line :: s.after := by
  induction ls generalizing before with
  | nil => simp [spotsFrom]
  | cons l ls ih =>
    rw [spotsFrom, List.mem_cons, ih]
    constructor
    · rintro (rfl | ⟨front, hbefore, rfl⟩)
      · exact ⟨[], (List.append_nil before).symm, rfl⟩
      · exact ⟨l :: front, by rw [hbefore, List.append_assoc]; rfl, rfl⟩
    · rintro ⟨front, hbefore, heq⟩
      cases front with
      | nil =>
        obtain ⟨rfl, rfl⟩ := List.cons.inj heq
        rw [List.append_nil] at hbefore
        exact .inl (by rw [← hbefore])
      | cons l' front =>
        obtain ⟨rfl, rfl⟩ := List.cons.inj heq
        exact .inr ⟨front, by rw [hbefore, List.append_assoc]; rfl, rfl⟩

/-- The places of a script are the ways to take a line out of it. -/
theorem mem_spots_iff : s ∈ spots ls ↔ ls = s.before ++ s.line :: s.after := by
  rw [spots, mem_spotsFrom_iff]
  constructor
  · rintro ⟨front, hbefore, heq⟩
    rw [hbefore, List.nil_append, heq]
  · exact fun heq => ⟨s.before, rfl, heq⟩

/-- What is removed does not depend on the lines held back. -/
theorem strip_eq_filter_spotsFrom (before ls : List (List Char)) :
    (openAfter before = false →
      strip none ls = ((spotsFrom before ls).filter (!·.removed)).map Spot.line) ∧
    (openAfter before = true → ∀ held, strip (some held) ls =
      (if ls.any closes then [] else held.reverse) ++
        ((spotsFrom before ls).filter (!·.removed)).map Spot.line) := by
  induction ls generalizing before with
  | nil => exact ⟨fun _ => rfl, fun _ held => (List.append_nil held.reverse).symm⟩
  | cons l ls ih =>
    -- a line moves between the two states, so each part needs both of the hypothesis
    obtain ⟨ihclosed, ihopen⟩ := ih (before ++ [l])
    rw [openAfter_concat] at ihclosed ihopen
    constructor
    · intro hbefore
      have hremoved : Spot.removed ⟨before, l, ls⟩ = opens l := by simp [Spot.removed, hbefore]
      rw [strip, spotsFrom, List.filter_cons, hremoved]
      cases hl : opens l with
      | true =>
        rw [if_pos rfl, ihopen (by simp [hbefore, hl])]
        simp
      | false =>
        rw [if_neg Bool.false_ne_true, ihclosed (by simp [hbefore, hl])]
        rfl
    · intro hbefore held
      have hremoved : Spot.removed ⟨before, l, ls⟩ = (l :: ls).any closes := by
        simp [Spot.removed, hbefore]
      rw [strip, spotsFrom, List.filter_cons, hremoved, List.any_cons]
      cases hl : closes l with
      | true =>
        rw [if_pos rfl, ihclosed (by simp [hbefore, hl])]
        rfl
      | false =>
        rw [if_neg Bool.false_ne_true, ihopen (by simp [hbefore, hl])]
        cases ls.any closes <;> simp

/-- A strip keeps the lines that it does not remove, in order. -/
theorem strip_eq_filter (ls : List (List Char)) :
    strip none ls = ((spots ls).filter (!·.removed)).map Spot.line :=
  (strip_eq_filter_spotsFrom [] ls).1 rfl

/-- In a script whose blocks are all closed, a strip removes what opens a block or comes while one
is open. -/
theorem Spot.removed_eq (hclosed : Closed ls) (hs : s ∈ spots ls) :
    s.removed = (openAfter s.before || opens s.line) := by
  rw [removed]
  split
  · next hopen =>
    rw [hopen, Bool.true_or]
    by_contra hnone
    have hcloses : ∀ l ∈ s.line :: s.after, closes l = false := by simpa using hnone
    rw [closed_iff, mem_spots_iff.mp hs, openAfter, List.foldl_append, ← openAfter, hopen,
      foldl_openNext_of_not_closes hcloses] at hclosed
    cases hclosed
  · next hopen => simp [hopen]

/-! ## Strips and readers -/

/-- A reader goes on where a strip has come to the end of a block: the line that closes a block for
the strip opens one for the reader, and the line after it does not. -/
def RunsOn (ls : List (List Char)) : Prop :=
  ∃ s ∈ spots ls, openAfter s.before = true ∧ closes s.line = true ∧ opens s.line = true ∧
    ∃ next ∈ s.after.head?, opens next = false

instance : DecidablePred RunsOn := fun ls => inferInstanceAs (Decidable (∃ s ∈ spots ls, _))

/-- The lines that a reader takes to be outside remain. -/
theorem Spot.not_removed_of_outside (h : s.outside = true) : s.removed = false := by
  simp only [outside, inside, Bool.and_eq_true, Bool.not_eq_true'] at h
  have hopen : openAfter s.before = false := by
    by_contra hopen
    rw [insideAfter_of_openAfter (Bool.not_eq_false _ ▸ hopen)] at h
    cases h.1
  rw [removed, hopen, if_neg Bool.false_ne_true, h.2]

theorem outside_sublist_strip (ls : List (List Char)) : (outside ls).Sublist (strip none ls) := by
  rw [outside, strip_eq_filter]
  refine List.Sublist.map _ (List.monotone_filter_right _ fun s hs => ?_)
  simpa using Spot.not_removed_of_outside hs

/-- A line that opens no block, read inside of one where a strip has none open. The reader has run
on since a line before it. -/
theorem runsOn_of_inside {before after : List (List Char)} (hopen : openAfter before = false)
    (hinside : insideAfter before = true) (hl : opens l = false) :
    RunsOn (before ++ l :: after) := by
  induction before using List.reverseRecOn generalizing l after with
  | nil => cases hinside
  | append_singleton before last ih =>
    rw [openAfter_concat] at hopen
    rw [insideAfter_concat] at hinside
    rw [List.append_assoc, List.singleton_append]
    cases hlast : opens last with
    | true =>
      have hbefore : openAfter before = true := by
        by_contra hbefore
        rw [if_neg hbefore, hlast] at hopen
        cases hopen
      rw [if_pos hbefore, Bool.not_eq_false'] at hopen
      exact ⟨⟨before, last, l :: after⟩, mem_spots_iff.mpr rfl, hbefore, hopen, hlast, l, rfl, hl⟩
    | false =>
      rw [hlast, Bool.false_or, Bool.and_eq_true, Bool.not_eq_true'] at hinside
      obtain ⟨hcloses, hinside⟩ := hinside
      have hbefore : openAfter before = false := by
        by_contra hbefore
        rw [if_pos (Bool.not_eq_false _ ▸ hbefore), hcloses] at hopen
        cases hopen
      exact ih hbefore hinside hlast

/-- What remains is what a reader takes to be outside, line by line, unless a block runs on. -/
theorem Spot.removed_eq_not_outside (hclosed : Closed ls) (hruns : ¬RunsOn ls) (hs : s ∈ spots ls) :
    s.removed = !s.outside := by
  have hinside : opens s.line = false → s.inside = openAfter s.before := by
    intro hl
    cases hopen : openAfter s.before with
    | true => exact insideAfter_of_openAfter hopen
    | false =>
      by_contra hinside
      rw [mem_spots_iff.mp hs] at hruns
      exact hruns (runsOn_of_inside hopen (Bool.not_eq_false _ ▸ hinside) hl)
  rw [removed_eq hclosed hs, outside]
  cases hl : opens s.line with
  | true => simp
  | false => simp [hinside hl]

/-- The line after one that a block runs on past is inside for a reader, and remains. -/
theorem RunsOn.exists_inside (h : RunsOn ls) :
    ∃ s ∈ spots ls, s.inside = true ∧ s.removed = false := by
  obtain ⟨⟨before, last, after⟩, hs, hopen, hcloses, hopens, next, hnext, hplain⟩ := h
  obtain ⟨after, rfl⟩ : ∃ rest, after = next :: rest := List.head?_eq_some_iff.mp hnext
  refine ⟨⟨before ++ [last], next, after⟩, mem_spots_iff.mpr ?_, ?_, ?_⟩
  · rw [mem_spots_iff.mp hs, List.append_assoc]
    rfl
  · rw [Spot.inside, insideAfter_concat, hopens, Bool.true_or]
  · have hclosed : openAfter (before ++ [last]) = false := by
      rw [openAfter_concat, if_pos hopen, hcloses]
      rfl
    rw [Spot.removed, hclosed, if_neg Bool.false_ne_true, hplain]

/-- In a script that leaves no block open, what a strip keeps is what a reader takes to be outside
of blocks just where no block runs on; all of the latter is kept in any case. -/
theorem strip_eq_outside_iff {source : String}
    (hend : (scan false (lines source.toList)).1 = false) :
    let ls := linesWithEnds source.toList
    (outside ls).Sublist (strip none ls) ∧
      ((strip none ls = outside ls ∧
          (∀ es, embedBlock source es =
            renderBlock es ++ String.ofList ((outside ls).flatten.dropWhile (· = '\n'))) ∧
          ∀ s ∈ spots ls, s.inside = true → s.removed = true) ↔ ¬RunsOn ls) := by
  intro ls
  refine ⟨outside_sublist_strip ls, ?_, ?_⟩
  · intro ⟨_, _, hinside⟩ hruns
    obtain ⟨s, hs, hin, hkept⟩ := hruns.exists_inside
    rw [hinside s hs hin] at hkept
    cases hkept
  · intro hruns
    have hclosed : Closed ls := closed_iff.mpr (Bool.eq_false_iff.mpr fun hopen =>
      Bool.eq_false_iff.mp hend (insideAfter_of_openAfter hopen))
    have hspot : ∀ s ∈ spots ls, s.removed = !s.outside := fun s hs =>
      Spot.removed_eq_not_outside hclosed hruns hs
    have hstrip : strip none ls = outside ls := by
      rw [strip_eq_filter, outside]
      refine congrArg _ (List.filter_congr fun s hs => ?_)
      rw [hspot s hs, Bool.not_not]
    refine ⟨hstrip, fun es => ?_, fun s hs hin => ?_⟩
    · rw [embedBlock, stripBlocks, hstrip]
    · rw [hspot s hs, Spot.outside, hin]
      rfl

/-- A block that is closed by a line with both sentinels, and for a reader two lines later. -/
def overrun : String :=
  "begin-user-library\nend-user-library begin-user-library\n(f)\nend-user-library\n"

/-- The code between the two ends remains. -/
theorem not_strip_eq_outside : ¬∀ source : String, (scan false (lines source.toList)).1 = false →
    strip none (linesWithEnds source.toList) = outside (linesWithEnds source.toList) := by
  intro h
  have hend : (scan false (lines overrun.toList)).1 = false := by decide +kernel
  have hne :
      strip none (linesWithEnds overrun.toList) ≠ outside (linesWithEnds overrun.toList) := by
    decide +kernel
  exact hne (h overrun hend)

/-- Lines with both sentinels, one that opens a block and one that closes it before another opens; a
carriage return, a stray end, and a last line without a line break. -/
theorem strip_eq_outside_iff_nested :
    let source := "\r\nend-user-library begin-user-library\n(a)\n" ++
      "; begin-user-library end-user-library\n begin-user-library\n(f)\nend-user-library\n" ++
      "end-user-library\n(g"
    let ls := linesWithEnds source.toList
    (scan false (lines source.toList)).1 = false ∧ ¬RunsOn ls ∧
      outside ls = ["\r\n".toList, "end-user-library\n".toList, "(g".toList] ∧
      strip none ls = outside ls ∧ embedBlock source [] = "\r\nend-user-library\n(g" := by
  intro source ls
  obtain ⟨hend, hruns, houtside⟩ : (scan false (lines source.toList)).1 = false ∧ ¬RunsOn ls ∧
      outside ls = ["\r\n".toList, "end-user-library\n".toList, "(g".toList] := by decide +kernel
  obtain ⟨hstrip, hembed, -⟩ := (strip_eq_outside_iff hend).2.mpr hruns
  refine ⟨hend, hruns, houtside, hstrip, ?_⟩
  rw [hembed, houtside]
  decide +kernel

end LispBridge.Library
