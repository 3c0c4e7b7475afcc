import LispBridge.Library.Block
import LispBridge.Proofs.Library.Declaration

/-!
# Reading blocks back

What `scan` makes of lines that follow one another, of lines without sentinels, and of the lines
that `renderBlock` writes. A rendered block adds its entries, whatever follows
(`scan_renderBlock_append`); so it can stand anywhere in a script between lines whose blocks are
closed (`parseBlock_renderBlock_between`).
-/

namespace LispBridge.Library

open Chars

variable {ls : List (List Char)} {es : List Entry}

/-! ## Scanning -/

theorem opens_chomp (l : List Char) : opens (chomp l) = opens l :=
  contains_chomp (by decide) (by decide)

theorem closes_chomp (l : List Char) : closes (chomp l) = closes l :=
  contains_chomp (by decide) (by decide)

theorem scan_append (b : Bool) (ls ls' : List (List Char)) :
    scan b (ls ++ ls') =
      ((scan (scan b ls).1 ls').1, (scan b ls).2 ++ (scan (scan b ls).1 ls').2) := by
  induction ls generalizing b with
  | nil => rfl
  | cons l ls ih =>
    rw [List.cons_append, scan, scan]
    split
    · exact ih true
    split
    · exact ih false
    · rw [ih b]
      cases b
      · rfl
      · simp

theorem scan_of_not_opens (h : ∀ l ∈ ls, opens l = false) : scan false ls = (false, []) := by
  induction ls with
  | nil => rfl
  | cons l ls ih =>
    obtain ⟨hl, h⟩ := List.forall_mem_cons.mp h
    rw [scan, if_neg (by simp [hl]), ih h]
    split <;> rfl

/-- Where no line closes a block, one that is opened stays open. -/
theorem scan_fst_of_not_closes (h : ∀ l ∈ ls, closes l = false) (b : Bool) :
    (scan b ls).1 = (b || ls.any opens) := by
  induction ls generalizing b with
  | nil => simp [scan]
  | cons l ls ih =>
    obtain ⟨hl, h⟩ := List.forall_mem_cons.mp h
    rw [scan, hl, List.any_cons]
    split
    · next ho => rw [ih h, ho]; simp
    · next ho =>
      have hb : (scan b ls).1 = (b || ls.any opens) := ih h b
      cases b <;> simpa [ho] using hb

/-! ## Rendered blocks -/

/-- The line that declares an entry in a block. -/
def declarationLine (e : Entry) : List Char := "; ".toList ++ e.declaration.toList

theorem mem_declarationLine {e : Entry} (h : e.WellFormed) {c : Char} (hc : c ∈ declarationLine e) :
    isIdentChar c = true ∨ c ∈ "; ()".toList := by
  rcases List.mem_append.mp hc with hc | hc
  · exact .inr (List.mem_append_left "()".toList hc)
  · rcases mem_declaration h hc with hc | rfl | rfl | rfl
    · exact .inl hc
    · exact .inr (by decide)
    · exact .inr (by decide)
    · exact .inr (by decide)

theorem not_mem_declarationLine {e : Entry} (h : e.WellFormed) {c : Char}
    (hident : isIdentChar c = false) (hmark : c ∉ "; ()".toList) : c ∉ declarationLine e := by
  intro hc
  rcases mem_declarationLine h hc with hc | hc
  · rw [hident] at hc; cases hc
  · exact hmark hc

/-- No sentinel occurs in the line of an entry, for want of a hyphen. -/
theorem contains_declarationLine {e : Entry} (h : e.WellFormed) {needle : List Char}
    (hneedle : '-' ∈ needle) : contains needle (declarationLine e) = false := by
  refine Bool.eq_false_iff.mpr fun hc => ?_
  have hsub := (contains_eq_true_iff.mp hc).subset
  exact not_mem_declarationLine h (by decide) (by decide) (hsub hneedle)

theorem opens_declarationLine {e : Entry} (h : e.WellFormed) : opens (declarationLine e) = false :=
  contains_declarationLine h (by decide)

theorem closes_declarationLine {e : Entry} (h : e.WellFormed) :
    closes (declarationLine e) = false :=
  contains_declarationLine h (by decide)

theorem chomp_declarationLine {e : Entry} (h : e.WellFormed) :
    chomp (declarationLine e ++ ['\n']) = declarationLine e :=
  chomp_line fun hlast =>
    not_mem_declarationLine h (by decide) (by decide) (List.mem_of_getLast? hlast)

theorem scan_declarationLines (hes : ∀ e ∈ es, e.WellFormed) :
    scan true (es.map declarationLine) = (true, es) := by
  induction es with
  | nil => rfl
  | cons e es ih =>
    obtain ⟨he, hes⟩ := List.forall_mem_cons.mp hes
    have hfind : findDeclaration? (declarationLine e) = some e := by
      have hfront : '(' ∉ "; ".toList := by decide
      have hfind := findDeclaration?_append he hfront []
      rwa [List.append_nil] at hfind
    rw [List.map_cons, scan, opens_declarationLine he, closes_declarationLine he, ih hes, hfind]
    rfl

theorem linesWithEnds_declarations (hes : ∀ e ∈ es, e.WellFormed) (cs : List Char) :
    linesWithEnds ((String.join (es.map fun e => "; " ++ e.declaration ++ "\n")).toList ++ cs) =
      es.map (declarationLine · ++ ['\n']) ++ linesWithEnds cs := by
  induction es with
  | nil => rfl
  | cons e es ih =>
    obtain ⟨he, hes⟩ := List.forall_mem_cons.mp hes
    have hbreak : '\n' ∉ declarationLine e := not_mem_declarationLine he (by decide) (by decide)
    have hcons : (String.join ((e :: es).map fun e => "; " ++ e.declaration ++ "\n")).toList ++ cs =
        declarationLine e ++ '\n' ::
          ((String.join (es.map fun e => "; " ++ e.declaration ++ "\n")).toList ++ cs) := by
      simp [String.toList_join, declarationLine]
    rw [hcons, linesWithEnds_append, linesWithEnds_line hbreak, ih hes]
    rfl

/-- The lines before the declarations of a block. -/
theorem linesWithEnds_blockHead : linesWithEnds blockHead.toList =
    [";;; begin-user-library\n".toList,
      ";; This block describes the library of user functions.\n".toList,
      ";; So the editor knows that your device implements it.\n".toList, ";\n".toList] := by
  have hparts (a b c d : String) :
      (a ++ b ++ c ++ d).toList = a.toList ++ b.toList ++ c.toList ++ d.toList := by
    simp only [String.toList_append]
  rw [show blockHead.toList = _ from hparts .., String.toList_ofList, String.toList_ofList,
    String.toList_ofList, String.toList_ofList]
  decide +kernel

/-- The lines after them; the last is empty. -/
theorem linesWithEnds_blockTail : linesWithEnds blockTail.toList =
    [";\n".toList, ";;; end-user-library\n".toList, ['\n']] := by
  rw [show blockTail.toList = _ from String.toList_append, String.toList_ofList,
    String.toList_ofList, String.toList_ofList]
  decide +kernel

/-- The lines of the block for some entries, with their ends. -/
def blockLines (es : List Entry) : List (List Char) :=
  linesWithEnds blockHead.toList ++
    (es.map (declarationLine · ++ ['\n']) ++ linesWithEnds blockTail.toList)

theorem linesWithEnds_renderBlock_append (hne : es ≠ []) (hes : ∀ e ∈ es, e.WellFormed)
    (cs : List Char) :
    linesWithEnds ((renderBlock es).toList ++ cs) = blockLines es ++ linesWithEnds cs := by
  have hblock : (renderBlock es).toList ++ cs = blockHead.toList ++
      ((String.join (es.map fun e => "; " ++ e.declaration ++ "\n")).toList ++
        (blockTail.toList ++ cs)) := by
    rw [renderBlock, if_neg (by simpa using hne), String.toList_append, String.toList_append,
      List.append_assoc, List.append_assoc]
  have hhead : blockHead.toList.getLast? = some '\n' := by
    rw [← flatten_linesWithEnds blockHead.toList, linesWithEnds_blockHead, String.toList_ofList,
      String.toList_ofList, String.toList_ofList, String.toList_ofList]
    decide
  have htail : blockTail.toList.getLast? = some '\n' := by
    rw [← flatten_linesWithEnds blockTail.toList, linesWithEnds_blockTail]
    rfl
  rw [hblock, linesWithEnds_append_of_getLast? hhead, linesWithEnds_declarations hes,
    linesWithEnds_append_of_getLast? htail, blockLines, List.append_assoc, List.append_assoc]

theorem lines_renderBlock_append (hne : es ≠ []) (hes : ∀ e ∈ es, e.WellFormed) (cs : List Char) :
    lines ((renderBlock es).toList ++ cs) = lines blockHead.toList ++
      (es.map declarationLine ++ (lines blockTail.toList ++ lines cs)) := by
  have hchomp : ∀ e ∈ es, (chomp ∘ (declarationLine · ++ ['\n'])) e = declarationLine e :=
    fun e he => chomp_declarationLine (hes e he)
  rw [lines, linesWithEnds_renderBlock_append hne hes, blockLines, List.map_append, List.map_append,
    List.map_append, List.map_map, List.map_congr_left hchomp, List.append_assoc, List.append_assoc]
  rfl

/-- A rendered block adds its entries to those of the lines after it. -/
theorem scan_renderBlock_append (hes : ∀ e ∈ es, e.WellFormed) (cs : List Char) :
    scan false (lines ((renderBlock es).toList ++ cs)) =
      ((scan false (lines cs)).1, es ++ (scan false (lines cs)).2) := by
  by_cases hne : es = []
  · subst hne; rfl
  have hhead : scan false (lines blockHead.toList) = (true, []) := by
    rw [lines, linesWithEnds_blockHead, String.toList_ofList, String.toList_ofList,
      String.toList_ofList, String.toList_ofList]
    decide +kernel
  have htail : scan true (lines blockTail.toList) = (false, []) := by
    rw [lines, linesWithEnds_blockTail, String.toList_ofList, String.toList_ofList]
    decide +kernel
  rw [lines_renderBlock_append hne hes, scan_append, hhead, scan_append, scan_declarationLines hes,
    scan_append, htail]
  rfl

theorem parseBlock_renderBlock (hes : ∀ e ∈ es, e.WellFormed) :
    parseBlock (renderBlock es) = es := by
  have hscan := scan_renderBlock_append hes []
  rw [List.append_nil] at hscan
  rw [parseBlock, hscan]
  exact List.append_nil es

/-! ## Blocks in a script -/

/-- Whether a line holds a sentinel. -/
def marks (line : List Char) : Bool := opens line || closes line

/-- Whether the last line of a script that holds a sentinel opens a block. -/
def leavesOpen (source : String) : Bool :=
  ((lines source.toList).filter marks).getLast?.any opens

/-- The last sentinel decides whether a block is open at the end. -/
theorem scan_fst (b : Bool) (ls : List (List Char)) :
    (scan b ls).1 = ((ls.filter marks).getLast?.map opens).getD b := by
  induction ls generalizing b with
  | nil => rfl
  | cons l ls ih =>
    rw [scan]
    split
    · next ho =>
      rw [ih, List.filter_cons_of_pos (by simp [marks, ho]), List.getLast?_cons]
      cases (ls.filter marks).getLast? <;> simp [ho]
    split
    · next ho hc =>
      rw [ih, List.filter_cons_of_pos (by simp [marks, hc]), List.getLast?_cons]
      cases (ls.filter marks).getLast? <;> simp [ho]
    · next ho hc =>
      rw [List.filter_cons_of_neg (by simp [marks, ho, hc]), ← ih]
      cases b <;> rfl

theorem scan_lines_fst (source : String) :
    (scan false (lines source.toList)).1 = leavesOpen source := by
  rw [scan_fst, leavesOpen]
  cases ((lines source.toList).filter marks).getLast? <;> rfl

theorem parseBlock_eq (source : String) : parseBlock source =
    if leavesOpen source then [] else (scan false (lines source.toList)).2 := by
  rw [parseBlock, ← scan_lines_fst]

/-- A block that starts a line, with no block open before it, adds its entries where it stands. If
what follows it leaves a block open, nothing is read at all. -/
theorem parseBlock_renderBlock_between {pre post : String} (hes : ∀ e ∈ es, e.WellFormed)
    (hend : pre = "" ∨ pre.toList.getLast? = some '\n') (hpre : leavesOpen pre = false) :
    parseBlock (pre ++ renderBlock es ++ post) =
      if leavesOpen post then [] else parseBlock pre ++ es ++ parseBlock post := by
  have hlines : lines (pre ++ renderBlock es ++ post).toList =
      lines pre.toList ++ lines ((renderBlock es).toList ++ post.toList) := by
    rw [String.toList_append, String.toList_append, List.append_assoc]
    obtain rfl | hlast := hend
    · rfl
    · exact lines_append hlast _
  have hscan : scan false (lines (pre ++ renderBlock es ++ post).toList) =
      (leavesOpen post, parseBlock pre ++ (es ++ (scan false (lines post.toList)).2)) := by
    rw [hlines, scan_append, scan_lines_fst, hpre, scan_renderBlock_append hes, scan_lines_fst,
      parseBlock_eq pre, hpre]
    rfl
  rw [parseBlock, hscan, parseBlock_eq post, List.append_assoc]
  cases leavesOpen post <;> rfl

/-- Entries with many placeholders, without parameters and with the names of the syntax itself,
after a closed block, and before text that names a sentinel again and ends without a line break. -/
theorem parseBlock_renderBlock_between_closed :
    let pre := "begin-user-library\r\n; x (defjs a(b c) )\r\nend-user-library (defjs d ())\n"
    let es := [Entry.ofParams "f" (.count 11), ⟨"g", []⟩, ⟨"g", []⟩, ⟨"defjs", ["begin", "_0"]⟩]
    let post := "(defjs h ())\nend-user-library begin-user-library\n(defjs i ())\nend-user-library"
    (∀ e ∈ es, e.WellFormed) ∧ pre.toList.getLast? = some '\n' ∧ leavesOpen pre = false ∧
      leavesOpen post = false ∧
      parseBlock (pre ++ renderBlock es ++ post) = ⟨"a", ["b", "c"]⟩ :: es ++ [⟨"i", []⟩] ∧
      parseBlock (pre ++ renderBlock es ++ openingSentinel) = [] := by
  intro pre es post
  have hes : ∀ e ∈ es, e.WellFormed :=
    List.forall_mem_cons.mpr ⟨Entry.wellFormed_ofParams_count (by decide) 11, by decide⟩
  have hend : pre.toList.getLast? = some '\n' := by decide +kernel
  have hpre : leavesOpen pre = false := by decide +kernel
  have hpost : leavesOpen post = false := by decide +kernel
  have hopen : leavesOpen openingSentinel = true := by decide +kernel
  have hbefore : parseBlock pre = [⟨"a", ["b", "c"]⟩] := by decide +kernel
  have hafter : parseBlock post = [⟨"i", []⟩] := by decide +kernel
  refine ⟨hes, hend, hpre, hpost, ?_, ?_⟩
  · rw [parseBlock_renderBlock_between hes (.inr hend) hpre, hpost, hbefore, hafter]
    rfl
  · rw [parseBlock_renderBlock_between hes (.inr hend) hpre, hopen]
    rfl

end LispBridge.Library
