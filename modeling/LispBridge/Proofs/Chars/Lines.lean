import LispBridge.Chars.Line
import LispBridge.Chars.Search

/-!
# Cutting a text into lines

`Lined` lists are those that `linesWithEnds` yields: cutting undoes putting together
(`Lined.linesWithEnds_flatten`), and leaving lines out keeps the others whole (`Lined.sublist`). A
text that holds no line break occurs in a line just if it occurs in the line without its end
(`contains_chomp`).
-/

namespace LispBridge.Chars

variable {cs cs' text needle l : List Char} {ls ls' : List (List Char)}

theorem contains_eq_true_iff : contains needle cs = true ↔ needle <:+: cs := by
  induction cs with
  | nil => simp [contains]
  | cons c cs ih =>
    rw [contains, Bool.or_eq_true, ih, List.isPrefixOf_iff_prefix, List.infix_cons_iff]

theorem afterPrefix?_eq_some_iff : afterPrefix? needle cs = some cs' ↔ cs = needle ++ cs' := by
  induction needle generalizing cs with
  | nil => simp [afterPrefix?]
  | cons n needle ih =>
    cases cs with
    | nil => simp [afterPrefix?]
    | cons c cs => rw [afterPrefix?, Option.ite_none_right_eq_some, ih, List.cons_append,
        List.cons.injEq, eq_comm (a := n)]

/-! ## Runs of characters -/

section
variable {p : Char → Bool} {run rest : List Char}

theorem takeWhile_append_eq (hrun : ∀ c ∈ run, p c = true) (hrest : ∀ c ∈ rest.head?, p c = false) :
    (run ++ rest).takeWhile p = run := by
  rw [List.takeWhile_append_of_pos hrun]
  cases rest with
  | nil => simp
  | cons c rest => simp [hrest c rfl]

theorem dropWhile_append_eq (hrun : ∀ c ∈ run, p c = true) (hrest : ∀ c ∈ rest.head?, p c = false) :
    (run ++ rest).dropWhile p = rest := by
  rw [List.dropWhile_append_of_pos hrun]
  cases rest with
  | nil => simp
  | cons c rest => simp [hrest c rfl]

end

/-! ## Texts that end with a line -/

theorem linesWithEnds_ne_nil (h : cs ≠ []) : linesWithEnds cs ≠ [] := by
  intro hnil
  have hflat := flatten_linesWithEnds cs
  rw [hnil] at hflat
  exact h hflat.symm

theorem linesWithEnds_append (text cs : List Char) :
    linesWithEnds (text ++ '\n' :: cs) = linesWithEnds (text ++ ['\n']) ++ linesWithEnds cs := by
  induction text with
  | nil => rfl
  | cons c text ih =>
    rw [List.cons_append, linesWithEnds, List.cons_append, linesWithEnds, ih]
    split
    · rfl
    · cases hl : linesWithEnds (text ++ ['\n']) with
      | nil => exact absurd hl (linesWithEnds_ne_nil (by simp))
      | cons l ls => rfl

theorem linesWithEnds_of_not_mem (h : '\n' ∉ text) :
    linesWithEnds text = if text = [] then [] else [text] := by
  induction text with
  | nil => rfl
  | cons c text ih =>
    have hc : c ≠ '\n' := fun hc => h (by simp [hc])
    have ih := ih fun hmem => h (List.mem_cons_of_mem c hmem)
    rw [linesWithEnds, if_neg hc, ih]
    cases text <;> simp

theorem linesWithEnds_line (h : '\n' ∉ text) :
    linesWithEnds (text ++ ['\n']) = [text ++ ['\n']] := by
  induction text with
  | nil => rfl
  | cons c text ih =>
    have hc : c ≠ '\n' := fun hc => h (by simp [hc])
    have ih := ih fun hmem => h (List.mem_cons_of_mem c hmem)
    rw [List.cons_append, linesWithEnds, if_neg hc, ih]

theorem linesWithEnds_append_of_getLast? (h : cs.getLast? = some '\n') (cs' : List Char) :
    linesWithEnds (cs ++ cs') = linesWithEnds cs ++ linesWithEnds cs' := by
  obtain ⟨text, rfl⟩ := List.getLast?_eq_some_iff.mp h
  rw [List.append_assoc, List.singleton_append, linesWithEnds_append]

theorem lines_append (h : cs.getLast? = some '\n') (cs' : List Char) :
    lines (cs ++ cs') = lines cs ++ lines cs' := by
  rw [lines, linesWithEnds_append_of_getLast? h, List.map_append]
  rfl

/-! ## Lists of lines -/

/-- The lists of lines that texts have: a line break ends each but the last, and is nowhere else. -/
inductive Lined : List (List Char) → Prop
  | nil : Lined []
  | last {text : List Char} : text ≠ [] → '\n' ∉ text → Lined [text]
  | cons {text : List Char} {ls} : '\n' ∉ text → Lined ls → Lined ((text ++ ['\n']) :: ls)

theorem lined_linesWithEnds (cs : List Char) : Lined (linesWithEnds cs) := by
  induction cs with
  | nil => exact .nil
  | cons c cs ih =>
    rw [linesWithEnds]
    split
    · exact @Lined.cons [] _ (by simp) ih
    next hc =>
    have hmem {text : List Char} (h : '\n' ∉ text) : '\n' ∉ c :: text := by
      simpa [h] using Ne.symm hc
    generalize linesWithEnds cs = ls at ih
    cases ih with
    | nil => exact .last (by simp) (hmem (by simp))
    | last _ h => exact .last (by simp) (hmem h)
    | cons h hls => exact .cons (hmem h) hls

namespace Lined

theorem linesWithEnds_flatten (h : Lined ls) : linesWithEnds ls.flatten = ls := by
  induction h with
  | nil => rfl
  | last hne h =>
    rw [List.flatten_cons, List.flatten_nil, List.append_nil, linesWithEnds_of_not_mem h,
      if_neg hne]
  | @cons text ls h _ ih =>
    rw [List.flatten_cons, List.append_assoc, List.singleton_append, linesWithEnds_append,
      linesWithEnds_line h, ih]
    rfl

theorem sublist (h : Lined ls) (hs : ls'.Sublist ls) : Lined ls' := by
  induction h generalizing ls' with
  | nil => rw [List.sublist_nil.mp hs]; exact .nil
  | last hne h =>
    rcases List.sublist_cons_iff.mp hs with hs | ⟨_, heq, hs⟩
    · rw [List.sublist_nil.mp hs]; exact .nil
    · rw [heq, List.sublist_nil.mp hs]; exact .last hne h
  | cons h _ ih =>
    rcases List.sublist_cons_iff.mp hs with hs | ⟨_, heq, hs⟩
    · exact ih hs
    · rw [heq]; exact .cons h (ih hs)

/-- Removing line breaks at the front of a text removes the empty lines there. -/
theorem dropWhile_flatten (h : Lined ls) :
    ls.flatten.dropWhile (· = '\n') = (ls.dropWhile (· = ['\n'])).flatten := by
  induction h with
  | nil => rfl
  | @last text hne h =>
    cases text with
    | nil => exact absurd rfl hne
    | cons c text =>
      have hc : c ≠ '\n' := fun hc => h (by simp [hc])
      simp [hc]
  | @cons text ls h _ ih =>
    cases text with
    | nil => simpa using ih
    | cons c text =>
      have hc : c ≠ '\n' := fun hc => h (by simp [hc])
      simp [hc]

end Lined

/-! ## Lines without their ends -/

theorem chomp_line (h : text.getLast? ≠ some '\r') : chomp (text ++ ['\n']) = text := by
  have hhead : text.reverse.head? ≠ some '\r' := by rwa [List.head?_reverse]
  unfold chomp
  rw [List.reverse_append, List.reverse_singleton, List.singleton_append]
  split
  · next heq =>
    rw [List.cons.injEq] at heq
    exact absurd (by rw [heq.2]; rfl) hhead
  · next heq =>
    rw [List.cons.injEq] at heq
    rw [← heq.2, List.reverse_reverse]
  · next hne => exact absurd rfl (hne _)

/-- A line is what remains without its end, and that end. -/
theorem exists_chomp_append (l : List Char) :
    ∃ ending, l = chomp l ++ ending ∧ (ending = [] ∨ ending = ['\n'] ∨ ending = ['\r', '\n']) := by
  unfold chomp
  split
  · next r heq =>
    refine ⟨['\r', '\n'], ?_, .inr (.inr rfl)⟩
    have hl := congrArg List.reverse heq
    simpa using hl
  · next r _ heq =>
    refine ⟨['\n'], ?_, .inr (.inl rfl)⟩
    have hl := congrArg List.reverse heq
    simpa using hl
  · exact ⟨[], (List.append_nil l).symm, .inl rfl⟩

theorem chomp_concat_isPrefix (text : List Char) : chomp (text ++ ['\n']) <+: text := by
  by_cases h : text.getLast? = some '\r'
  · obtain ⟨front, rfl⟩ := List.getLast?_eq_some_iff.mp h
    have hchomp : chomp (front ++ ['\r'] ++ ['\n']) = front := by simp [chomp]
    rw [hchomp]
    exact List.prefix_append front ['\r']
  · exact ⟨[], by rw [chomp_line h, List.append_nil]⟩

/-- Of the lines of a text, only the last can lack a line feed; there is none but at the end. -/
theorem Lined.of_cons (h : Lined (l :: ls)) :
    '\n' ∉ chomp l ∧ (ls = [] ∨ l.getLast? = some '\n') ∧ Lined ls := by
  cases h with
  | last _ hfeed =>
    obtain ⟨ending, hl, -⟩ := exists_chomp_append l
    exact ⟨fun hmem => hfeed (by rw [hl]; exact List.mem_append_left _ hmem), .inl rfl, .nil⟩
  | @cons text _ hfeed hls =>
    exact ⟨fun hmem => hfeed ((chomp_concat_isPrefix text).subset hmem),
      .inr List.getLast?_concat, hls⟩

theorem infix_concat_iff_of_not_mem {c : Char} (h : c ∉ needle) :
    needle <:+: cs ++ [c] ↔ needle <:+: cs := by
  rw [List.infix_concat_iff, List.suffix_concat_iff]
  refine ⟨fun hor => ?_, .inr⟩
  rcases hor with (rfl | ⟨t, rfl, -⟩) | hin
  · exact List.nil_infix
  · exact absurd (List.mem_append_right t List.mem_cons_self) h
  · exact hin

theorem contains_chomp (hn : '\n' ∉ needle) (hr : '\r' ∉ needle) :
    contains needle (chomp l) = contains needle l := by
  obtain ⟨ending, hl, hending⟩ := exists_chomp_append l
  rw [Bool.eq_iff_iff, contains_eq_true_iff, contains_eq_true_iff]
  conv => rhs; rw [hl]
  rcases hending with rfl | rfl | rfl
  · rw [List.append_nil]
  · rw [infix_concat_iff_of_not_mem hn]
  · rw [List.append_cons, infix_concat_iff_of_not_mem hn, infix_concat_iff_of_not_mem hr]

end LispBridge.Chars
