import LispBridge.Proofs.Library.Extent
import Mathlib.Data.List.DropRight

/-!
# Embedding over an embedded block

A strip takes a rendered block out again, all but the empty line at its end (`strip_blockLines`),
and embedding drops the empty lines at the front of what remains. So a script whose blocks are
closed keeps the same body however often blocks are embedded in it (`body_embedBlock`), and the last
embedding alone counts (`embedBlock_embedBlock`).
-/

namespace LispBridge.Library

open Chars

variable {ls ls' : List (List Char)} {es : List Entry} {source : String}

/-! ## Lines whose blocks are closed -/

theorem Closed.append (h : Closed ls) (h' : Closed ls') : Closed (ls ++ ls') := by
  rw [closed_iff, h.openAfter_append]
  exact closed_iff.mp h'

theorem closed_of_not_opens (h : ∀ l ∈ ls, opens l = false) : Closed ls := by
  induction ls with
  | nil => exact .nil
  | cons l ls ih =>
    obtain ⟨hl, h⟩ := List.forall_mem_cons.mp h
    exact .plain hl (ih h)

theorem strip_of_not_opens (h : ∀ l ∈ ls, opens l = false) : strip none ls = ls := by
  induction ls with
  | nil => rfl
  | cons l ls ih =>
    obtain ⟨hl, h⟩ := List.forall_mem_cons.mp h
    rw [strip, hl, if_neg Bool.false_ne_true, ih h]

/-! ## Rendered blocks -/

/-- A rendered block is one block, and an empty line. -/
theorem exists_blockLines_eq (hes : ∀ e ∈ es, e.WellFormed) : ∃ first body last,
    blockLines es = first :: (body ++ last :: [['\n']]) ∧ opens first = true ∧
      (∀ l ∈ body, closes l = false) ∧ closes last = true := by
  let preface := [";; This block describes the library of user functions.\n".toList,
    ";; So the editor knows that your device implements it.\n".toList, ";\n".toList]
  have hlines : blockLines es = ";;; begin-user-library\n".toList ::
      ((preface ++ (es.map (declarationLine · ++ ['\n']) ++ [";\n".toList])) ++
        ";;; end-user-library\n".toList :: [['\n']]) := by
    rw [blockLines, linesWithEnds_blockHead, linesWithEnds_blockTail]
    simp only [List.cons_append, List.nil_append, List.append_assoc, preface]
  refine ⟨_, _, _, hlines, by decide +kernel, ?_, by decide +kernel⟩
  rw [List.forall_mem_append, List.forall_mem_append, List.forall_mem_map]
  refine ⟨by decide +kernel, fun e he => ?_, by decide +kernel⟩
  rw [← closes_chomp, chomp_declarationLine (hes e he), closes_declarationLine (hes e he)]

theorem closed_blockLines (hes : ∀ e ∈ es, e.WellFormed) : Closed (blockLines es) := by
  obtain ⟨first, body, last, heq, hfirst, hbody, hlast⟩ := exists_blockLines_eq hes
  have hempty : opens ['\n'] = false := by decide
  rw [heq]
  exact .block hfirst hbody hlast (.plain hempty .nil)

theorem strip_blockLines (hes : ∀ e ∈ es, e.WellFormed) :
    strip none (blockLines es) = [['\n']] := by
  obtain ⟨first, body, last, heq, hfirst, hbody, hlast⟩ := exists_blockLines_eq hes
  rw [heq, strip, if_pos hfirst, strip_block hbody hlast]
  rfl

/-! ## Embedding -/

/-- The lines of an embedded block, if there is one. -/
theorem linesWithEnds_embedBlock (source : String) (hes : ∀ e ∈ es, e.WellFormed) :
    linesWithEnds (embedBlock source es).toList = (if es = [] then [] else blockLines es) ++
      (strip none (linesWithEnds source.toList)).dropWhile (· = ['\n']) := by
  rw [embedBlock, String.toList_append, String.toList_ofList, ← linesWithEnds_stripBlocks]
  split
  · next hnil => rw [hnil]; rfl
  · next hne => exact linesWithEnds_renderBlock_append hne hes _

theorem Closed.not_opens_dropWhile (h : Closed ls) :
    ∀ l ∈ (strip none ls).dropWhile (· = ['\n']), opens l = false :=
  fun l hl => h.not_opens l ((List.dropWhile_sublist _).subset hl)

theorem closed_embedBlock (hsource : Closed (linesWithEnds source.toList))
    (hes : ∀ e ∈ es, e.WellFormed) : Closed (linesWithEnds (embedBlock source es).toList) := by
  rw [linesWithEnds_embedBlock source hes]
  refine .append ?_ (closed_of_not_opens hsource.not_opens_dropWhile)
  split
  · exact .nil
  · exact closed_blockLines hes

/-- Of an embedded block at most an empty line remains. -/
theorem strip_embedBlock (hsource : Closed (linesWithEnds source.toList))
    (hes : ∀ e ∈ es, e.WellFormed) :
    strip none (linesWithEnds (embedBlock source es).toList) =
      (if es = [] then [] else [['\n']]) ++
        (strip none (linesWithEnds source.toList)).dropWhile (· = ['\n']) := by
  have hbody := strip_of_not_opens hsource.not_opens_dropWhile
  rw [linesWithEnds_embedBlock source hes]
  split
  · exact hbody
  · rw [(closed_blockLines hes).strip_append, strip_blockLines hes, hbody]

/-- Embedding keeps what an embedding puts below its block. -/
theorem body_embedBlock (hsource : Closed (linesWithEnds source.toList))
    (hes : ∀ e ∈ es, e.WellFormed) :
    (stripBlocks (embedBlock source es).toList).dropWhile (· = '\n') =
      (stripBlocks source.toList).dropWhile (· = '\n') := by
  rw [dropWhile_stripBlocks, dropWhile_stripBlocks, strip_embedBlock hsource hes]
  split
  · rw [List.nil_append, List.dropWhile_idempotent]
  · rw [List.singleton_append, List.dropWhile_cons_of_pos (by simp), List.dropWhile_idempotent]

theorem embedBlock_embedBlock_of_closed (hsource : Closed (linesWithEnds source.toList))
    (hes : ∀ e ∈ es, e.WellFormed) (es' : List Entry) :
    embedBlock (embedBlock source es) es' = embedBlock source es' := by
  rw [embedBlock, body_embedBlock hsource hes]
  rfl

/-- Embedding after any number of embeddings is embedding in the script itself. -/
theorem embedBlock_embedBlock (hsource : Closed (linesWithEnds source.toList))
    (hes : ∀ e ∈ es, e.WellFormed) (es' : List Entry) :
    embedBlock (embedBlock source es) es' = embedBlock source es' ∧
      ∀ ess : List (List Entry), (∀ es ∈ ess, ∀ e ∈ es, e.WellFormed) →
        embedBlock (ess.foldl embedBlock source) es' = embedBlock source es' := by
  refine ⟨embedBlock_embedBlock_of_closed hsource hes es', fun ess hess => ?_⟩
  induction ess generalizing source with
  | nil => rfl
  | cons es ess ih =>
    obtain ⟨hes, hess⟩ := List.forall_mem_cons.mp hess
    rw [List.foldl_cons, ih (closed_embedBlock hsource hes) hess]
    exact embedBlock_embedBlock_of_closed hsource hes es'

/-- A script that starts with empty lines, with a block between carriage returns and a stray end; it
holds no block but for the lines of the last embedding. -/
theorem embedBlock_embedBlock_returns :
    let source := "\n\n; begin-user-library\r\n; (defjs a ())\nend-user-library\r\n" ++
      "\n\r\n(f)\nend-user-library\n\n(g"
    let es : List Entry := [Entry.ofParams "b" (.count 2), ⟨"begin", ["end"]⟩]
    Closed (linesWithEnds source.toList) ∧ (∀ e ∈ es, e.WellFormed) ∧
      embedBlock (embedBlock source es) [] = "\r\n(f)\nend-user-library\n\n(g" ∧
      embedBlock ([es, [], es, es].foldl embedBlock source) es = embedBlock source es := by
  intro source es
  have hes : ∀ e ∈ es, e.WellFormed :=
    List.forall_mem_cons.mpr ⟨Entry.wellFormed_ofParams_count (by decide) 2, by decide⟩
  obtain ⟨hclosed, hplain⟩ : Closed (linesWithEnds source.toList) ∧
      embedBlock source [] = "\r\n(f)\nend-user-library\n\n(g" := by decide +kernel
  have hess : ∀ es' ∈ [es, [], es, es], ∀ e ∈ es', e.WellFormed := by simpa using hes
  obtain ⟨hagain, -⟩ := embedBlock_embedBlock hclosed hes []
  obtain ⟨-, hrepeat⟩ := embedBlock_embedBlock hclosed hes es
  exact ⟨hclosed, hes, hagain.trans hplain, hrepeat _ hess⟩

end LispBridge.Library
