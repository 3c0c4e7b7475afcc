import LispBridge.Format.Pretty
import LispBridge.Proofs.Format.Tokens

/-!
# Laying a script out keeps its tokens

A layout puts blanks before some brackets and drops some at the start of a line; it goes over
strings, atoms and comments as they are (`Layout.run_string`, `Layout.run_atom`,
`Layout.run_comment`). With blank texts for its indentation and its line breaks it keeps all tokens
(`Layout.tokensOf_run`), and with them all that is not blank.
-/

namespace LispBridge.Format

open Chars

theorem mem_of_mem_copies {n : Nat} {c : Char} {cs : List Char} (h : c ∈ copies n cs) : c ∈ cs := by
  obtain ⟨text, htext, hc⟩ := List.mem_flatten.mp h
  rwa [List.eq_of_mem_replicate htext] at hc

theorem Cursor.depthAfter_of_isBlank {c : Char} (hc : isBlank c = true) (k : Cursor) :
    k.depthAfter c = k.depth := by
  have hopen : c ≠ '(' := by rintro rfl; revert hc; decide
  have hclose : c ≠ ')' := by rintro rfl; revert hc; decide
  simp [depthAfter, hopen, hclose]

namespace Layout

/-- Indentation by spaces and tabs, and line breaks that are line breaks. -/
structure Plain (o : Layout) : Prop where
  indent : ∀ c ∈ o.indent.toList, c = ' ' ∨ c = '\t'
  newline : ∀ c ∈ o.newline.toList, isBreak c = true
  newline_ne : o.newline ≠ ""

theorem plain_iff {o : Layout} : o.Plain ↔
    (o.indent.toList.all fun c => c = ' ' || c = '\t') = true ∧
      o.newline.toList.all isBreak = true ∧ o.newline ≠ "" := by
  simp only [List.all_eq_true, Bool.or_eq_true, decide_eq_true_eq]
  exact ⟨fun ⟨hi, hn, hne⟩ => ⟨hi, hn, hne⟩, fun ⟨hi, hn, hne⟩ => ⟨hi, hn, hne⟩⟩

instance (o : Layout) : Decidable o.Plain := decidable_of_iff _ plain_iff.symm

theorem plain_default : Plain {} := by decide

variable (o : Layout) {d : Nat} {f : Bool} {c : Char} {cs : List Char}

/-- What is put before an opening bracket. -/
def lead (k : Cursor) : List Char :=
  (if k.fresh then [] else o.newline.toList) ++ copies k.depth o.indent.toList

theorem run_open : o.run ⟨.code, d, f⟩ ('(' :: cs) =
    o.lead ⟨.code, d, f⟩ ++ '(' :: o.run ⟨.code, d + 1, false⟩ cs := by
  simp [run, emit, lead, Cursor.next, Mode.next, Cursor.depthAfter, Cursor.freshAfter, isBreak]

/-- Outside of code everything is kept. -/
theorem emit_of_ne_code {k : Cursor} (hm : k.mode ≠ .code) : o.emit k c = [c] := by
  obtain ⟨m, d, f⟩ := k
  cases m with
  | code => exact absurd rfl hm
  | escaped | comment | string | stringEscaped => rfl

theorem run_of_ne_code {k : Cursor} (hm : k.mode ≠ .code) :
    o.run k (c :: cs) = c :: o.run (k.next c) cs := by
  rw [run, emit_of_ne_code o hm, List.singleton_append]

/-- In code all else is kept, but for spaces and tabs at the start of a line. -/
theorem run_keep (hc : c ≠ '(') (hf : (c = ' ' ∨ c = '\t') → f = false) :
    o.run ⟨.code, d, f⟩ (c :: cs) = c :: o.run (Cursor.next ⟨.code, d, f⟩ c) cs := by
  have hkeep : ¬((c = ' ' ∨ c = '\t') ∧ f = true) := fun ⟨hc, ht⟩ => by simp [hf hc] at ht
  rw [run, emit, if_neg hc, if_neg hkeep]
  rfl

theorem run_drop (hc : c = ' ' ∨ c = '\t') :
    o.run ⟨.code, d, true⟩ (c :: cs) = o.run ⟨.code, d, true⟩ cs := by
  rcases hc with rfl | rfl <;>
    simp [run, emit, Cursor.next, Mode.next, Cursor.depthAfter, Cursor.freshAfter]

/-- A blank is kept or dropped. -/
theorem run_blank (d : Nat) (f : Bool) (cs : List Char) (hc : isBlank c = true) : ∃ f',
    o.run ⟨.code, d, f⟩ (c :: cs) = o.run ⟨.code, d, f'⟩ cs ∨
      o.run ⟨.code, d, f⟩ (c :: cs) = c :: o.run ⟨.code, d, f'⟩ cs := by
  have hopen : c ≠ '(' := by rintro rfl; revert hc; decide
  have hnext : Cursor.next ⟨.code, d, f⟩ c = ⟨.code, d, Cursor.freshAfter ⟨.code, d, f⟩ c⟩ := by
    rw [Cursor.next, Mode.next_code (.inl hc), Cursor.depthAfter_of_isBlank hc]
  refine ⟨Cursor.freshAfter ⟨.code, d, f⟩ c, ?_⟩
  rw [run, hnext, emit, if_neg hopen]
  by_cases hdrop : (c = ' ' ∨ c = '\t') ∧ f = true
  · exact .inl (by rw [if_pos hdrop]; rfl)
  · exact .inr (by rw [if_neg hdrop]; rfl)

theorem run_bracket (d : Nat) (f : Bool) (cs : List Char) (hc : isBracket c = true)
    (hne : c ≠ '(') : ∃ d', o.run ⟨.code, d, f⟩ (c :: cs) = c :: o.run ⟨.code, d', false⟩ cs := by
  refine ⟨Cursor.depthAfter ⟨.code, d, f⟩ c, ?_⟩
  rcases isBracket_iff.mp hc with rfl | rfl | rfl | rfl
  · exact absurd rfl hne
  all_goals
    rw [run_keep o hne (by simp)]
    simp [Cursor.next, Mode.next, Cursor.freshAfter, isBreak]

theorem run_comment_start : o.run ⟨.code, d, f⟩ (';' :: cs) = ';' :: o.run ⟨.comment, d, f⟩ cs := by
  rw [run_keep o (by decide) (by simp)]
  simp [Cursor.next, Mode.next, Cursor.depthAfter, Cursor.freshAfter, isBreak]

theorem run_string_start : o.run ⟨.code, d, f⟩ ('"' :: cs) =
    '"' :: o.run ⟨.inString false, d, false⟩ cs := by
  rw [run_keep o (by decide) (by simp)]
  simp [Cursor.next, Mode.next, Mode.inString, Cursor.depthAfter, Cursor.freshAfter, isBreak]

theorem run_comment : o.run ⟨.comment, d, f⟩ cs =
    cs.takeWhile (!isBreak ·) ++ o.run ⟨.code, d, f⟩ (cs.dropWhile (!isBreak ·)) := by
  induction cs with
  | nil => rfl
  | cons c cs ih =>
    cases hc : isBreak c with
    | true =>
      rw [List.takeWhile_cons_of_neg (by simp [hc]), List.dropWhile_cons_of_neg (by simp [hc])]
      simp only [isBreak, Bool.or_eq_true, decide_eq_true_eq] at hc
      rcases hc with rfl | rfl <;>
        simp [run, emit, Cursor.next, Mode.next, Cursor.depthAfter, Cursor.freshAfter, isBreak]
    | false =>
      rw [List.takeWhile_cons_of_pos (by simp [hc]), List.dropWhile_cons_of_pos (by simp [hc]),
        List.cons_append, ← ih]
      simp [run, emit, Cursor.next, Mode.next, Cursor.depthAfter, Cursor.freshAfter, hc]

theorem run_string {escaped : Bool} : o.run ⟨.inString escaped, d, f⟩ cs =
    (cutString escaped cs).1 ++ o.run ⟨.code, d, f⟩ (cutString escaped cs).2 := by
  fun_induction cutString escaped cs with
  | case1 => rfl
  | case2 c cs ih => exact congrArg (c :: ·) ih
  | case3 cs => rfl
  | case4 c cs hc ih =>
    rw [run, Cursor.next, Mode.next_inString hc]
    exact congrArg (c :: ·) ih

/-- An atom starts or goes on. -/
theorem run_atom_start (hc : endsAtom c = false) : o.run ⟨.code, d, f⟩ (c :: cs) =
    c :: o.run ⟨.inAtom (c = '\\'), d, false⟩ cs := by
  have hopen : c ≠ '(' := ne_of_endsAtom hc (by decide)
  have hclose : c ≠ ')' := ne_of_endsAtom hc (by decide)
  have hspace : c ≠ ' ' := ne_of_endsAtom hc (by decide)
  have htab : c ≠ '\t' := ne_of_endsAtom hc (by decide)
  have hcomment : c ≠ ';' := ne_of_endsAtom hc (by decide)
  have hfeed : c ≠ '\n' := ne_of_endsAtom hc (by decide)
  have hreturn : c ≠ '\r' := ne_of_endsAtom hc (by decide)
  have hmode : Mode.code.next c = .inAtom (c = '\\') := Mode.next_inAtom hc
  rw [run_keep o hopen (by simp [hspace, htab])]
  simp [Cursor.next, Cursor.depthAfter, Cursor.freshAfter, isBreak, *]

theorem run_atom {escaped : Bool} : o.run ⟨.inAtom escaped, d, false⟩ cs =
    (cutAtom escaped cs).1 ++ o.run ⟨.code, d, false⟩ (cutAtom escaped cs).2 := by
  fun_induction cutAtom escaped cs with
  | case1 => rfl
  | case2 c cs ih => exact congrArg (c :: ·) ih
  | case3 c cs hc => rfl
  | case4 c cs hc ih =>
    rw [Mode.inAtom_false, run_atom_start o (by simpa using hc), ih]
    rfl

theorem isBreak_head_run (h : ∀ c ∈ cs.head?, isBreak c = true) :
    ∀ c ∈ (o.run ⟨.code, d, f⟩ cs).head?, isBreak c = true := by
  cases cs with
  | nil => exact h
  | cons c cs =>
    have hc : isBreak c = true := h c rfl
    have hopen : c ≠ '(' := by rintro rfl; revert hc; decide
    have hkeep : ¬(c = ' ' ∨ c = '\t') := by rintro (rfl | rfl) <;> revert hc <;> decide
    rw [run_keep o hopen (fun h => absurd h hkeep)]
    simpa using hc

/-! ## Tokens -/

variable {o}

theorem Plain.lead_blank (ho : o.Plain) (k : Cursor) : ∀ c ∈ o.lead k, isBlank c = true := by
  intro c hc
  rcases List.mem_append.mp hc with hc | hc
  · split at hc
    · cases hc
    · exact isBlank_of_isBreak (ho.newline c hc)
  · rcases ho.indent c (mem_of_mem_copies hc) with rfl | rfl <;> decide

/-- Where an atom stops in the script it stops in the layout. -/
theorem Plain.stops_run (ho : o.Plain) (h : Stops cs) : Stops (o.run ⟨.code, d, false⟩ cs) := by
  cases cs with
  | nil => exact .nil
  | cons c cs =>
    by_cases hc : c = '('
    · subst hc
      rw [run_open]
      cases hlead : o.lead ⟨.code, d, false⟩ with
      | nil => exact stops_cons.mpr (by decide)
      | cons b _ =>
        have hb : b ∈ o.lead ⟨.code, d, false⟩ := by rw [hlead]; exact List.mem_cons_self
        exact stops_cons.mpr (endsAtom_of_isBlank (ho.lead_blank _ b hb))
    · rw [run_keep o hc (fun _ => rfl)]
      exact stops_cons.mpr (stops_cons.mp h)

theorem Plain.tokensOf_run (ho : o.Plain) (d : Nat) (f : Bool) (cs : List Char) :
    tokensOf (o.run ⟨.code, d, f⟩ cs) = tokensOf cs := by
  induction cs using tokensOf.induct generalizing d f with
  | case1 => rfl
  | case2 c cs hblank ih =>
    obtain ⟨f', hrun⟩ := run_blank o d f cs hblank
    rw [tokensOf_blank hblank]
    rcases hrun with hrun | hrun
    · rw [hrun, ih]
    · rw [hrun, tokensOf_blank hblank, ih]
  | case3 c cs _ hbracket ih =>
    rw [tokensOf_bracket hbracket]
    by_cases hc : c = '('
    · subst hc
      rw [run_open, tokensOf_blanks_append (ho.lead_blank _), tokensOf_bracket hbracket, ih]
    · obtain ⟨d', hrun⟩ := run_bracket o d f cs hbracket hc
      rw [hrun, tokensOf_bracket hbracket, ih]
  | case4 cs _ _ ih =>
    rw [run_comment_start, run_comment, tokensOf_comment_append, tokensOf_comment, ih]
    exact o.isBreak_head_run isBreak_head_dropWhile
  | case5 cs _ _ _ ih =>
    rw [run_string_start, run_string, tokensOf_string_append, tokensOf_string, ih]
    intro hnil
    rw [hnil]
    rfl
  | case6 c cs hblank hbracket hcomment hquote ih =>
    have hc : endsAtom c = false := endsAtom_eq_false hblank hbracket hcomment hquote
    have hstops : Stops (o.run ⟨.code, d, false⟩ (cutAtom (c = '\\') cs).2) :=
      ho.stops_run stops_cutAtom
    rw [run_atom_start o hc, run_atom, tokensOf_atom_append hc, tokensOf_atom hc,
      cutAtom_of_stops hstops, ih, List.append_nil]
    intro hnil
    rw [hnil]
    rfl

end Layout

/-- A plain layout keeps every token, comments among them, and all that is not blank. -/
theorem tokens_prettyWith {o : Layout} (ho : o.Plain) (code : String) :
    tokens (prettyWith o code) = tokens code ∧
      (prettyWith o code).toList.filter (!isBlank ·) = code.toList.filter (!isBlank ·) := by
  have htokens : tokensOf (prettyWith o code).toList = tokensOf code.toList := by
    rw [prettyWith, String.toList_ofList]
    exact ho.tokensOf_run 0 true code.toList
  refine ⟨htokens, ?_⟩
  rw [← filter_text_tokensOf, htokens, filter_text_tokensOf]

/-- Escapes, a string over two lines, and comments that a carriage return and the text end. -/
theorem tokens_prettyWith_tabbed :
    let o : Layout := ⟨" \t", "\r\n"⟩
    let code := "\t(f\\((g \"(;\\\"\n\"\\ (h)) ; (\r  (k)] ;;("
    o.Plain ∧ prettyWith o code =
        "(f\\(\r\n \t(g \"(;\\\"\n\"\\ \r\n \t \t(h)) ; (\r \t(k)] ;;(" ∧
      tokens (prettyWith o code) = tokens code ∧
      (prettyWith o code).toList.filter (!isBlank ·) = code.toList.filter (!isBlank ·) := by
  intro o code
  have ho : o.Plain := by decide
  exact ⟨ho, by decide, tokens_prettyWith ho code⟩

end LispBridge.Format
