import LispBridge.Proofs.Format.CommentLine
import LispBridge.Proofs.Library.Extent

/-!
# Formatting scripts with blocks

A rendered block is made of remarks, and a layout neither makes nor destroys a sentinel, so the
entries of a script are those of the script laid out (`parseBlock_prettyWith_renderBlock`). Where
all that a strip removes is blank or comment (`Inert`), a squeeze does not see that it is gone
(`run_spots`), and does not see the new block either (`minify_embedBlock`).
-/

namespace LispBridge.Library

open Chars Format

variable {ls : List (List Char)} {es : List Entry}

/-! ## The lines of a block -/

theorem remark_declarationLine {e : Entry} (h : e.WellFormed) :
    Remark (declarationLine e ++ ['\n']) := by
  refine ⟨List.getLast?_concat, ?_, ?_⟩
  · rw [List.dropLast_concat]
    exact not_isBreak_of_mem (not_mem_declarationLine h (by decide) (by decide))
      (not_mem_declarationLine h (by decide) (by decide))
  · rw [List.dropLast_concat]
    intro c hc
    cases hc
    rfl

theorem remark_of_mem_blockLines (hes : ∀ e ∈ es, e.WellFormed) :
    ∀ l ∈ blockLines es, Remark l := by
  rw [blockLines, linesWithEnds_blockHead, linesWithEnds_blockTail, List.forall_mem_append,
    List.forall_mem_append, List.forall_mem_map]
  exact ⟨by decide +kernel, fun e he => remark_declarationLine (hes e he), by decide +kernel⟩

/-- A rendered block is remarks alone. -/
theorem exists_remarks_renderBlock (hes : ∀ e ∈ es, e.WellFormed) :
    ∃ ls : List (List Char), (renderBlock es).toList = ls.flatten ∧ ∀ l ∈ ls, Remark l := by
  by_cases hne : es = []
  · subst hne
    exact ⟨[], rfl, by simp⟩
  have hlines := linesWithEnds_renderBlock_append hne hes []
  rw [List.append_nil, show linesWithEnds [] = [] from rfl, List.append_nil] at hlines
  exact ⟨blockLines es, by rw [← hlines, flatten_linesWithEnds], remark_of_mem_blockLines hes⟩

/-! ## Blocks and layouts -/

variable {o : Layout}

/-- A layout leaves a block at the top of a script as it is. -/
theorem prettyWith_renderBlock_append (o : Layout) (hes : ∀ e ∈ es, e.WellFormed) (body : String) :
    prettyWith o (renderBlock es ++ body) = renderBlock es ++ prettyWith o body := by
  obtain ⟨ls, hblock, hls⟩ := exists_remarks_renderBlock hes
  rw [prettyWith, String.toList_append, hblock, o.run_remarks hls, String.ofList_append, ← hblock,
    String.ofList_toList]
  rfl

/-- A plain layout neither makes nor destroys a sentinel. -/
theorem opens_prettyWith (ho : o.Plain) (code : String) :
    opens (prettyWith o code).toList = opens code.toList := by
  have htokens : tokensOf (prettyWith o code).toList = tokensOf code.toList := by
    rw [prettyWith, String.toList_ofList]
    exact ho.tokensOf_run 0 true code.toList
  have hall : (openingSentinel.toList.all (!endsAtom ·)) = true := by decide
  have hword : ∀ c ∈ openingSentinel.toList, endsAtom c = false := by
    simpa only [List.all_eq_true, Bool.not_eq_true'] using hall
  exact contains_congr_tokensOf hword htokens

theorem not_opens_of_mem_lines {cs : List Char} (h : opens cs = false) :
    ∀ l ∈ lines cs, opens l = false := by
  rw [lines, List.forall_mem_map]
  intro l hl
  rw [opens_chomp]
  by_contra hopens
  have hsentinel := contains_eq_true_iff.mp (Bool.not_eq_false _ ▸ hopens : opens l = true)
  have hl := List.infix_of_mem_flatten hl
  rw [flatten_linesWithEnds] at hl
  have hcs : opens cs = true := contains_eq_true_iff.mpr (hsentinel.trans hl)
  rw [h] at hcs
  cases hcs

theorem parseBlock_renderBlock_append (hes : ∀ e ∈ es, e.WellFormed) {body : String}
    (hbody : opens body.toList = false) : parseBlock (renderBlock es ++ body) = es := by
  rw [parseBlock, String.toList_append, scan_renderBlock_append hes,
    scan_of_not_opens (not_opens_of_mem_lines hbody)]
  simp

/-- The entries of a block at the top of a script are read from the script laid out too. -/
theorem parseBlock_prettyWith_renderBlock (ho : o.Plain) (hes : ∀ e ∈ es, e.WellFormed)
    {body : String} (hbody : contains openingSentinel.toList body.toList = false) :
    parseBlock (prettyWith o (renderBlock es ++ body)) = es ∧
      buildLibrary (prettyWith o (renderBlock es ++ body)) =
        buildLibrary (renderBlock es ++ body) := by
  have hlayout : opens (prettyWith o body).toList = false := (opens_prettyWith ho body).trans hbody
  have hparse : parseBlock (prettyWith o (renderBlock es ++ body)) = es := by
    rw [prettyWith_renderBlock_append o hes, parseBlock_renderBlock_append hes hlayout]
  refine ⟨hparse, ?_⟩
  rw [buildLibrary, fullLibrary, hparse, buildLibrary, fullLibrary,
    parseBlock_renderBlock_append hes hbody]

/-- A body with an end and a declaration outside of comments, and with halves of a sentinel, one of
them at the start of a line and one in a list of its own. -/
theorem parseBlock_prettyWith_renderBlock_halves :
    let o : Layout := ⟨"\t ", "\r"⟩
    let es : List Entry := [Entry.ofParams "f" (.count 11), ⟨"defjs", []⟩, ⟨"begin", ["_0", "end"]⟩]
    let body := "(f\\((g \"(;\n\" end-user-library\r(defjs h (a)) begin-user\n \t-library) ; (\n" ++
      "begin-user(-library]) ;begin-user("
    o.Plain ∧ (∀ e ∈ es, e.WellFormed) ∧ contains openingSentinel.toList body.toList = false ∧
      prettyWith o body = "(f\\(\r\t (g \"(;\n\" end-user-library\r\t \t (defjs h \r" ++
        "\t \t \t (a)) begin-user\n-library) ; (\nbegin-user\r\t (-library]) ;begin-user(" ∧
      parseBlock (prettyWith o (renderBlock es ++ body)) = es ∧
      buildLibrary (prettyWith o (renderBlock es ++ body)) =
        buildLibrary (renderBlock es ++ body) := by
  intro o es body
  have ho : o.Plain := by decide
  have hes : ∀ e ∈ es, e.WellFormed :=
    List.forall_mem_cons.mpr ⟨Entry.wellFormed_ofParams_count (by decide) 11, by decide⟩
  have hbody : contains openingSentinel.toList body.toList = false := by decide +kernel
  exact ⟨ho, hes, hbody, by decide +kernel, parseBlock_prettyWith_renderBlock ho hes hbody⟩

/-! ## Blocks and squeezes -/

/-- Each line that a strip removes is blank, or a comment takes it up from where the line starts. -/
def Inert (source : String) : Prop :=
  ∀ s ∈ spots (linesWithEnds source.toList), s.removed = true →
    IsBlankLine s.line ∨ IsCommentLine s.line ∧ StartsLine s.before.flatten

instance : DecidablePred Inert := fun source =>
  inferInstanceAs (Decidable (∀ s ∈ spots (linesWithEnds source.toList), _))

theorem not_isBlankLine_of_opens {l : List Char} (h : opens l = true) : ¬IsBlankLine l := by
  intro hblank
  have hmem : 'b' ∈ l := (contains_eq_true_iff.mp h).subset (by decide)
  exact absurd (hblank 'b' hmem) (by decide)

/-- A strip leaves no block open behind a line that it keeps, unless that is never closed. -/
theorem Spot.not_closes_of_kept {s : Spot} (h : s.removed = false)
    (hopen : openAfter (s.before ++ [s.line]) = true) : s.after.any closes = false := by
  rw [openAfter_concat] at hopen
  rw [removed] at h
  split at h
  · rw [List.any_cons, Bool.or_eq_false_iff] at h
    exact h.2
  · next hbefore =>
    rw [if_neg hbefore, h] at hopen
    cases hopen

/-- The squeeze stands at the start of a line where a line is removed, if it does so wherever a
block is open that will be closed. -/
theorem Spot.atStart_of_removed {s : Spot} (h : s.removed = true)
    (hline : IsBlankLine s.line ∨ IsCommentLine s.line ∧ StartsLine s.before.flatten)
    (hopen : openAfter s.before = true → (s.line :: s.after).any closes = true →
      (Squeeze.after {} s.before.flatten).AtStart) :
    (Squeeze.after {} s.before.flatten).AtStart := by
  rw [removed] at h
  split at h
  · next hbefore => exact hopen hbefore h
  · exact (hline.resolve_left (not_isBlankLine_of_opens h)).2.atStart

/-- What a squeeze makes of lines, it makes of those that remain of them, also from a state that
only a gap tells apart. -/
theorem run_spots {before : List (List Char)} {k : Squeeze} (hlined : Lined ls)
    (hk : (Squeeze.after {} before.flatten).Alike k)
    (hinert : ∀ s ∈ spotsFrom before ls, s.removed = true →
      IsBlankLine s.line ∨ IsCommentLine s.line ∧ StartsLine s.before.flatten)
    (hopen : openAfter before = true → ls.any closes = true →
      (Squeeze.after {} before.flatten).AtStart) :
    (Squeeze.after {} before.flatten).run ls.flatten =
      k.run (((spotsFrom before ls).filter (!·.removed)).map Spot.line).flatten := by
  -- `hopen` carries the induction: no blank line of an open block is removed from within a string
  induction ls generalizing before k with
  | nil => rfl
  | cons l ls ih =>
    obtain ⟨hfeed, hend, hls⟩ := hlined.of_cons
    obtain ⟨hl, hinert⟩ := List.forall_mem_cons.mp hinert
    have hafter : Squeeze.after {} (before ++ [l]).flatten =
        (Squeeze.after {} before.flatten).after l := by
      rw [List.flatten_append, Squeeze.after_append, List.flatten_singleton]
    have ih (k : Squeeze) := @ih (before ++ [l]) k hls
    rw [hafter] at ih
    rw [spotsFrom, List.filter_cons, List.flatten_cons]
    cases hremoved : Spot.removed ⟨before, l, ls⟩ with
    | true =>
      have hstart := Spot.atStart_of_removed hremoved (hl hremoved) hopen
      obtain ⟨k', hpasses, hk'⟩ := hstart.exists_passes ((hl hremoved).imp_right And.left) hfeed
      rw [hpasses.run_append, Bool.not_true, if_neg Bool.false_ne_true]
      rw [hpasses.after] at ih
      cases ls with
      | nil => rfl
      | cons next ls =>
        -- another line follows, so this one has an end, and a gap is left behind
        obtain rfl := hk' (hend.resolve_left (List.cons_ne_nil _ _))
        exact ih k (hstart.alike.trans hk) hinert fun _ _ => ⟨rfl, .inl rfl⟩
    | false =>
      have hkept : openAfter (before ++ [l]) = true → ls.any closes = true →
          ((Squeeze.after {} before.flatten).after l).AtStart := by
        intro hnext hcloses
        rw [Spot.not_closes_of_kept hremoved hnext] at hcloses
        cases hcloses
      rw [Squeeze.run_append, hk.run, ih _ (hk.after l) hinert hkept, Bool.not_false, if_pos rfl,
        List.map_cons, List.flatten_cons, Squeeze.run_append]

/-- A squeeze passes over a block at the top of a script. -/
theorem run_renderBlock_append (hes : ∀ e ∈ es, e.WellFormed) (cs : List Char) :
    Squeeze.run {} ((renderBlock es).toList ++ cs) = Squeeze.run {} cs := by
  obtain ⟨ls, hblock, hls⟩ := exists_remarks_renderBlock hes
  rw [hblock]
  exact (Squeeze.passes_remarks hls).run_append_of_none cs

/-- What a strip leaves of a script has the same code if all that it removes is blank or comment. -/
theorem run_stripBlocks {source : String} (h : Inert source) :
    Squeeze.run {} (stripBlocks source.toList) = Squeeze.run {} source.toList := by
  have hspots : Squeeze.run {} (linesWithEnds source.toList).flatten =
      Squeeze.run {} (((spots (linesWithEnds source.toList)).filter (!·.removed)).map
        Spot.line).flatten :=
    run_spots (lined_linesWithEnds source.toList) ⟨rfl, rfl, .inl rfl⟩ h fun hopen => nomatch hopen
  rw [stripBlocks, strip_eq_filter, ← hspots, flatten_linesWithEnds]

/-- Embedding neither adds code to a script nor takes any from it, if what it removes is none. -/
theorem minify_embedBlock {source : String} (hes : ∀ e ∈ es, e.WellFormed) (h : Inert source) :
    minify (embedBlock source es) = minify source := by
  rw [minify, embedBlock, String.toList_append, String.toList_ofList, run_renderBlock_append hes,
    Squeeze.run_dropWhile, run_stripBlocks h]
  rfl

/-- A block is replaced between an atom and a string with a semicolon at the start of a line, and
one without an end starts after an escaped semicolon. -/
theorem minify_embedBlock_unclosed :
    let source := "(f\n \t;; begin-user-library\r\n\u2003\n; (defjs a (b))\n" ++
      "  ;end-user-library (\"\n\"\\\"\n; x\" g\\;\n;begin-user-library\n(h"
    let es : List Entry := [Entry.ofParams "b" (.count 2), ⟨"c", ["d"]⟩]
    (∀ e ∈ es, e.WellFormed) ∧ Inert source ∧
      embedBlock source [] = "(f\n\"\\\"\n; x\" g\\;\n(h" ∧
      minify (embedBlock source es) = "(f \"\\\"\n; x\" g\\; (h" := by
  intro source es
  have hes : ∀ e ∈ es, e.WellFormed :=
    List.forall_mem_cons.mpr ⟨Entry.wellFormed_ofParams_count (by decide) 2, by decide⟩
  obtain ⟨hinert, hplain, hminify⟩ : Inert source ∧
      embedBlock source [] = "(f\n\"\\\"\n; x\" g\\;\n(h" ∧
      minify source = "(f \"\\\"\n; x\" g\\; (h" := by decide +kernel
  exact ⟨hes, hinert, hplain, (minify_embedBlock hes hinert).trans hminify⟩

end LispBridge.Library
