import LispBridge.Proofs.Library.Extent

/-!
# Which lines are read

A line is read for a declaration just if it holds no sentinel and the nearest line before it that
holds one opens a block. That is said by looking back from each line (`Enclosed`, `Spot.Read`),
where a scan carries a flag along; the two come to the same (`scan_enclosed`), and so a script
declares what the lines declare that are read, unless its last sentinel opens a block
(`parseBlock_eq_read`).
-/

namespace LispBridge.Library

open Chars

variable {ls : List (List Char)} {l : List Char}

/-- Of the lines with a sentinel the last one opens a block. -/
def Enclosed (ls : List (List Char)) : Prop :=
  ∃ front last rest, ls = front ++ last :: rest ∧ opens last = true ∧ ∀ l ∈ rest, marks l = false

theorem enclosed_iff : Enclosed ls ↔ (ls.filter marks).getLast?.any opens = true := by
  rw [Option.any_eq_true]
  constructor
  · rintro ⟨front, last, rest, rfl, hopens, hrest⟩
    have hlast : marks last = true := by rw [marks, hopens, Bool.true_or]
    have hnil : rest.filter marks = [] := List.filter_eq_nil_iff.mpr (by simpa using hrest)
    refine ⟨last, ?_, hopens⟩
    rw [List.filter_append, List.filter_cons_of_pos hlast, hnil, List.getLast?_concat]
  · rintro ⟨last, hlast, hopens⟩
    obtain ⟨marked, hmarked⟩ := List.getLast?_eq_some_iff.mp hlast
    obtain ⟨before, after, rfl, -, hafter⟩ := List.filter_eq_append_iff.mp hmarked
    obtain ⟨middle, rest, rfl, -, -, hrest⟩ := List.filter_eq_cons_iff.mp hafter
    refine ⟨before ++ middle, last, rest, (List.append_assoc ..).symm, hopens, ?_⟩
    simpa using List.filter_eq_nil_iff.mp hrest

theorem enclosed_concat :
    Enclosed (ls ++ [l]) ↔ opens l = true ∨ closes l = false ∧ Enclosed ls := by
  rw [enclosed_iff, enclosed_iff, List.filter_append]
  cases hopens : opens l <;> cases hcloses : closes l <;> simp [marks, hopens, hcloses]

instance : DecidablePred Enclosed := fun _ => decidable_of_iff _ enclosed_iff.symm

/-- The line holds no sentinel, and the nearest one before it opens a block. -/
def Spot.Read (s : Spot) : Prop := marks s.line = false ∧ Enclosed s.before

instance : DecidablePred Spot.Read := fun _ => inferInstanceAs (Decidable (_ ∧ _))

/-- The entries that lines declare which are read. -/
def readEntries (ss : List Spot) : List Entry :=
  (ss.filter Spot.Read).filterMap fun s => findDeclaration? s.line

theorem readEntries_cons (s : Spot) (ss : List Spot) :
    readEntries (s :: ss) =
      (if s.Read then (findDeclaration? s.line).toList else []) ++ readEntries ss := by
  rw [readEntries, List.filter_cons]
  by_cases hread : s.Read
  · rw [if_pos (decide_eq_true hread), if_pos hread, List.filterMap_cons]
    cases findDeclaration? s.line <;> rfl
  · rw [if_neg (by simpa using hread), if_neg hread]
    rfl

/-- A scan goes by the last sentinel before the lines it is given. -/
theorem scan_enclosed (before ls : List (List Char)) :
    (scan (decide (Enclosed before)) ls).2 = readEntries (spotsFrom before ls) := by
  induction ls generalizing before with
  | nil => rfl
  | cons l ls ih =>
    have hnext : decide (Enclosed (before ++ [l])) =
        (opens l || (!closes l && decide (Enclosed before))) := by
      rw [Bool.eq_iff_iff]
      simp [enclosed_concat]
    have hread : Spot.Read ⟨before, l, ls⟩ ↔ (opens l || closes l) = false ∧ Enclosed before := .rfl
    rw [scan, spotsFrom, readEntries_cons, ← ih, hnext, if_congr hread rfl rfl]
    cases opens l with
    | true => simp
    | false =>
      cases closes l with
      | true => simp
      | false => by_cases hbefore : Enclosed before <;> simp [hbefore]

/-- A script whose last sentinel opens a block declares nothing. Any other declares, in order, what
those lines declare that hold no sentinel, the nearest one before them opening a block. -/
theorem parseBlock_eq_read (source : String) :
    parseBlock source =
      if Enclosed (lines source.toList) then [] else readEntries (spots (lines source.toList)) := by
  have hentries := scan_enclosed [] (lines source.toList)
  rw [decide_eq_false (by decide : ¬Enclosed [])] at hentries
  rw [parseBlock_eq, hentries]
  exact if_congr enclosed_iff.symm rfl rfl

/-- A line with both sentinels opens a block, and so does a second line with the first one. -/
example :
    let source := "end-user-library begin-user-library\n(defjs a ())\nbegin-user-library\n" ++
      "(defjs b ())\nend-user-library\n(defjs c ())"
    readEntries (spots (lines source.toList)) = [⟨"a", []⟩, ⟨"b", []⟩] := by
  decide +kernel

end LispBridge.Library
