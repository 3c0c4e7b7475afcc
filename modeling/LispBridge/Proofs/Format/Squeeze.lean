import LispBridge.Format.Minify
import LispBridge.Proofs.Format.Layout
import Mathlib.Data.List.Chain

/-!
# Squeezing a script onto one line joins some atoms

No space is put after a character that looks like an opening bracket, also where a backslash made
it part of an atom. So an atom that ends in one runs into the atom after it (`Token.runsInto`), and
a squeezed script has the tokens that come of joining the two (`Squeeze.tokensOf_run`). A squeeze
keeps all tokens but comments just where no two tokens do that (`minify_keeps_tokens_iff`).
-/

namespace LispBridge.Format

open Chars

def isOpening (c : Char) : Bool := c = '(' || c = '['

namespace Token

/-- Whether a token takes up the one after it when the blanks between them go. -/
def runsInto : Token → Token → Bool
  | .atom text, .atom _ => text.getLast?.any isOpening
  | _, _ => false

/-- A token before others; it takes up the first of them if it runs into that. -/
def join (t : Token) : List Token → List Token
  | [] => [t]
  | u :: ts => if t.runsInto u then .atom (t.text ++ u.text) :: ts else t :: u :: ts

end Token

/-- The tokens once each has taken up what it runs into. -/
def glue : List Token → List Token := List.foldr Token.join []

/-- No token runs into the one after it. -/
def Apart (ts : List Token) : Prop := ts.IsChain fun t u => t.runsInto u = false

instance : DecidablePred Apart := fun ts => inferInstanceAs (Decidable (ts.IsChain _))

variable {t : Token} {ts : List Token}

theorem Token.join_of_not_runsInto (h : ∀ u ∈ ts.head?, t.runsInto u = false) :
    t.join ts = t :: ts := by
  cases ts with
  | nil => rfl
  | cons u ts => rw [join, if_neg (by simp [h u rfl])]

theorem Token.length_join_le (t : Token) (ts : List Token) :
    (t.join ts).length ≤ ts.length + 1 := by
  cases ts with
  | nil => exact Nat.le_refl 1
  | cons u ts => rw [join]; split <;> simp

theorem Token.not_runsInto_of_length_join (h : (t.join ts).length = ts.length + 1) :
    ∀ u ∈ ts.head?, t.runsInto u = false := by
  cases ts with
  | nil => simp
  | cons u ts =>
    rintro _ ⟨⟩
    by_contra hruns
    rw [join, if_pos (by simpa using hruns)] at h
    simp at h

theorem length_glue_le (ts : List Token) : (glue ts).length ≤ ts.length := by
  induction ts with
  | nil => exact Nat.le_refl 0
  | cons t ts ih => exact (t.length_join_le _).trans (Nat.succ_le_succ ih)

theorem Apart.glue_eq (h : Apart ts) : glue ts = ts := by
  induction ts with
  | nil => rfl
  | cons t ts ih =>
    obtain ⟨hhead, htail⟩ := List.isChain_cons.mp h
    rw [glue, List.foldr_cons, ← glue, ih htail]
    exact Token.join_of_not_runsInto hhead

/-- Joining makes the list shorter. -/
theorem apart_of_length_glue (h : (glue ts).length = ts.length) : Apart ts := by
  induction ts with
  | nil => exact List.IsChain.nil
  | cons t ts ih =>
    have hjoin : (t.join (glue ts)).length = ts.length + 1 := h
    have hlength : (glue ts).length = ts.length := by
      have hle := length_glue_le ts
      have hle' := t.length_join_le (glue ts)
      omega
    have htail : Apart ts := ih hlength
    rw [htail.glue_eq] at hjoin
    exact List.isChain_cons.mpr ⟨Token.not_runsInto_of_length_join hjoin, htail⟩

theorem glue_eq_self_iff : glue ts = ts ↔ Apart ts :=
  ⟨fun h => apart_of_length_glue (congrArg List.length h), Apart.glue_eq⟩

theorem isComment_of_mem_glue (h : ∀ t ∈ ts, t.isComment = false) :
    ∀ t ∈ glue ts, t.isComment = false := by
  induction ts with
  | nil => simp [glue]
  | cons t ts ih =>
    obtain ⟨ht, hts⟩ := List.forall_mem_cons.mp h
    have hglue := ih hts
    show ∀ u ∈ t.join (glue ts), u.isComment = false
    cases hcut : glue ts with
    | nil => simpa [Token.join] using ht
    | cons u us =>
      rw [hcut] at hglue
      obtain ⟨hu, hus⟩ := List.forall_mem_cons.mp hglue
      rw [Token.join]
      split
      · exact List.forall_mem_cons.mpr ⟨rfl, hus⟩
      · exact List.forall_mem_cons.mpr ⟨ht, hglue⟩

/-! ## A squeeze along one token -/

namespace Squeeze

variable {k : Squeeze} {l : Option Char} {x : Char} {g : Bool} {c : Char} {cs : List Char}

/-- What is put before a character that is written. -/
def lead (k : Squeeze) (c : Char) : List Char := if k.spaceBefore c then [' '] else []

theorem lead_blank (k : Squeeze) (c : Char) : ∀ b ∈ k.lead c, isBlank b = true := by
  intro b hb
  rw [lead] at hb
  split at hb
  · rw [List.mem_singleton.mp hb]
    decide
  · cases hb

theorem lead_of_no_gap (m : Mode) (l : Option Char) (c : Char) : lead ⟨m, l, false⟩ c = [] := rfl

theorem lead_of_isOpening (hx : isOpening x = true) : lead ⟨.code, some x, g⟩ c = [] := by
  simp only [isOpening, Bool.or_eq_true, decide_eq_true_eq] at hx
  rcases hx with rfl | rfl <;> simp [lead, spaceBefore]

theorem lead_of_not_isOpening (hx : isOpening x = false) (hc : c ≠ ')' ∧ c ≠ ']') :
    lead ⟨.code, some x, true⟩ c = [' '] := by
  have hdue : spaceBefore ⟨.code, some x, true⟩ c = true := by
    rw [spaceBefore]
    split <;> simp_all [isOpening]
  rw [lead, if_pos hdue]

theorem mode_next (k : Squeeze) (c : Char) : (k.next c).mode = k.mode.next c := by
  rw [next]
  split <;> rfl

theorem run_keep (hc : k.skips c = false) :
    k.run (c :: cs) = k.lead c ++ c :: run ⟨k.mode.next c, some c, false⟩ cs := by
  rw [run, emit, next, hc, if_neg Bool.false_ne_true, if_neg Bool.false_ne_true, lead]
  split <;> rfl

theorem run_blank (hc : isBlank c = true) :
    run ⟨.code, l, g⟩ (c :: cs) = run ⟨.code, l, true⟩ cs := by
  have hmode : Mode.code.next c = .code := Mode.next_code (.inl hc)
  simp [run, emit, next, skips, opensGap, hc, hmode]

theorem run_bracket (hc : isBracket c = true) : run ⟨.code, l, g⟩ (c :: cs) =
    lead ⟨.code, l, g⟩ c ++ c :: run ⟨.code, some c, false⟩ cs := by
  have hcomment : c ≠ ';' := by rintro rfl; revert hc; decide
  rw [run_keep (by simp [skips, hcomment, isBlank_eq_false_of_isBracket hc]),
    Mode.next_code (.inr hc)]

theorem run_comment_start : run ⟨.code, l, g⟩ (';' :: cs) = run ⟨.comment, l, g⟩ cs := by
  have hblank : isBlank ';' = false := by decide
  simp [run, emit, next, skips, opensGap, Mode.next, hblank]

theorem run_comment :
    run ⟨.comment, l, g⟩ cs = run ⟨.code, l, g⟩ (cs.dropWhile (!isBreak ·)) := by
  induction cs with
  | nil => rfl
  | cons c cs ih =>
    cases hc : isBreak c with
    | true =>
      rw [List.dropWhile_cons_of_neg (by simp [hc]), run_blank (isBlank_of_isBreak hc)]
      simp [run, emit, next, skips, opensGap, Mode.next, hc]
    | false =>
      rw [List.dropWhile_cons_of_pos (by simp [hc]), ← ih]
      simp [run, emit, next, skips, opensGap, Mode.next, hc]

theorem run_string_start : run ⟨.code, l, g⟩ ('"' :: cs) =
    lead ⟨.code, l, g⟩ '"' ++ '"' :: run ⟨.inString false, some '"', false⟩ cs := by
  exact run_keep rfl

/-- A string is written as it is; where it ends, its last character is a quote. -/
theorem run_string {escaped : Bool} : run ⟨.inString escaped, some x, false⟩ cs =
    (cutString escaped cs).1 ++ run ⟨.code, some '"', false⟩ (cutString escaped cs).2 := by
  fun_induction cutString escaped cs generalizing x with
  | case1 => rfl
  | case2 c cs ih => exact congrArg (c :: ·) ih
  | case3 cs => rfl
  | case4 c cs hc ih =>
    rw [run_keep rfl, lead_of_no_gap, Mode.next_inString hc, ih]
    rfl

theorem run_atom_start (hc : endsAtom c = false) : run ⟨.code, l, g⟩ (c :: cs) =
    lead ⟨.code, l, g⟩ c ++ c :: run ⟨.inAtom (c = '\\'), some c, false⟩ cs := by
  obtain ⟨hblank, -, hcomment, -⟩ := endsAtom_eq_false_iff.mp hc
  have hmode : Mode.code.next c = .inAtom (c = '\\') := Mode.next_inAtom hc
  rw [run_keep (by simp [skips, hblank, hcomment]), hmode]

theorem run_atom {escaped : Bool} : run ⟨.inAtom escaped, some x, false⟩ cs =
    (cutAtom escaped cs).1 ++
      run ⟨.code, some ((cutAtom escaped cs).1.getLastD x), false⟩ (cutAtom escaped cs).2 := by
  fun_induction cutAtom escaped cs generalizing x with
  | case1 => rfl
  | case2 c cs ih =>
    rw [Prod.map_fst, List.getLastD_cons]
    exact congrArg (c :: ·) ih
  | case3 c cs hc => rfl
  | case4 c cs hc ih =>
    rw [Prod.map_fst, List.getLastD_cons, Mode.inAtom_false, run_atom_start (by simpa using hc),
      lead_of_no_gap, ih]
    rfl

/-! ## What follows an atom -/

/-- No blank follows what looks like an opening bracket. -/
theorem isBlank_head_run (hx : isOpening x = true) :
    ∀ c ∈ (run ⟨.code, some x, g⟩ cs).head?, isBlank c = false := by
  induction cs using tokensOf.induct generalizing g with
  | case1 => simp [run]
  | case2 c cs hblank ih =>
    rw [run_blank hblank]
    exact ih
  | case3 c cs _ hbracket ih =>
    rw [run_bracket hbracket, lead_of_isOpening hx]
    rintro _ ⟨⟩
    exact isBlank_eq_false_of_isBracket hbracket
  | case4 cs _ _ ih =>
    rw [run_comment_start, run_comment]
    exact ih
  | case5 cs _ _ _ ih =>
    rw [run_string_start, lead_of_isOpening hx]
    rintro _ ⟨⟩
    decide
  | case6 c cs hblank hbracket hcomment hquote ih =>
    have hc : endsAtom c = false := endsAtom_eq_false hblank hbracket hcomment hquote
    rw [run_atom_start hc, lead_of_isOpening hx]
    rintro _ ⟨⟩
    simpa using hblank

theorem stops_lead_append (hc : endsAtom c = true) : Stops (k.lead c ++ c :: cs) := by
  rw [lead]
  split
  · exact stops_cons.mpr (by decide)
  · exact stops_cons.mpr hc

/-- After any other character an atom stops that stops in the script or has a gap after it. -/
theorem stops_run (hx : isOpening x = false) (h : g = true ∨ Stops cs) :
    Stops (run ⟨.code, some x, g⟩ cs) := by
  induction cs using tokensOf.induct generalizing g with
  | case1 => exact .nil
  | case2 c cs hblank ih =>
    rw [run_blank hblank]
    exact ih (.inl rfl)
  | case3 c cs _ hbracket ih =>
    rw [run_bracket hbracket]
    exact stops_lead_append (endsAtom_of_isBracket hbracket)
  | case4 cs _ _ ih =>
    rw [run_comment_start, run_comment]
    apply ih
    right
    intro c hc
    exact endsAtom_of_isBlank (isBlank_of_isBreak (isBreak_head_dropWhile c hc))
  | case5 cs _ _ _ ih =>
    rw [run_string_start]
    exact stops_lead_append (by decide)
  | case6 c cs hblank hbracket hcomment hquote ih =>
    have hc : endsAtom c = false := endsAtom_eq_false hblank hbracket hcomment hquote
    have hgap : g = true := h.resolve_right fun hstops => by
      rw [stops_cons, hc] at hstops
      cases hstops
    have hclose : c ≠ ')' ∧ c ≠ ']' :=
      ⟨ne_of_endsAtom hc (by decide), ne_of_endsAtom hc (by decide)⟩
    rw [run_atom_start hc, hgap, lead_of_not_isOpening hx hclose]
    exact stops_cons.mpr (by decide)

end Squeeze

/-! ## Tokens -/

variable {text R : List Char}

/-- An atom that ends like an opening bracket takes up the text after it, up to where that stops. -/
theorem Token.join_atom (ht : text.getLast?.any isOpening = true)
    (hR : ∀ c ∈ R.head?, isBlank c = false) :
    Token.join (.atom text) (tokensOf R) =
      .atom (text ++ (cutAtom false R).1) :: tokensOf (cutAtom false R).2 := by
  cases R with
  | nil => simp [join, cutAtom]
  | cons c R =>
    have hblank : isBlank c = false := hR c rfl
    cases hc : endsAtom c with
    | false =>
      have hcut : cutAtom false (c :: R) = (cutAtom (c = '\\') R).map (c :: ·) id := by
        rw [cutAtom, if_neg (by simp [hc])]
      have hruns : ∀ u, runsInto (.atom text) (.atom u) = true := fun _ => ht
      rw [tokensOf_atom hc, join, if_pos (hruns _), hcut]
      rfl
    | true =>
      have hfirst : ∀ u ∈ (tokensOf (c :: R)).head?, runsInto (.atom text) u = false := by
        simp only [endsAtom, hblank, Bool.false_or, Bool.or_eq_true, decide_eq_true_eq] at hc
        rcases hc with (hbracket | rfl) | rfl
        · rw [tokensOf_bracket hbracket]
          rintro _ ⟨⟩
          rfl
        · rw [tokensOf_comment]
          rintro _ ⟨⟩
          rfl
        · rw [tokensOf_string]
          rintro _ ⟨⟩
          rfl
      rw [cutAtom_of_stops (stops_cons.mpr hc), join_of_not_runsInto hfirst, List.append_nil]

/-- What a squeeze writes has the tokens of the script, comments apart, each with what it runs
into. -/
theorem Squeeze.tokensOf_run (l : Option Char) (g : Bool) (cs : List Char) :
    tokensOf (run ⟨.code, l, g⟩ cs) = glue ((tokensOf cs).filter (!·.isComment)) := by
  induction cs using tokensOf.induct generalizing l g with
  | case1 => rw [run, tokensOf_nil]; rfl
  | case2 c cs hblank ih => rw [run_blank hblank, tokensOf_blank hblank, ih]
  | case3 c cs _ hbracket ih =>
    rw [run_bracket hbracket, tokensOf_blanks_append (lead_blank _ _), tokensOf_bracket hbracket,
      tokensOf_bracket hbracket, ih]
    exact (Token.join_of_not_runsInto fun _ _ => rfl).symm
  | case4 cs _ _ ih =>
    rw [run_comment_start, run_comment, tokensOf_comment, ih]
    rfl
  | case5 cs _ _ _ ih =>
    have hend : (cutString false cs).2 = [] →
        run ⟨.code, some '"', false⟩ (cutString false cs).2 = [] := by
      intro hnil
      rw [hnil]
      rfl
    rw [run_string_start, tokensOf_blanks_append (lead_blank _ _), run_string,
      tokensOf_string_append hend, tokensOf_string, ih]
    exact (Token.join_of_not_runsInto fun _ _ => rfl).symm
  | case6 c cs hblank hbracket hcomment hquote ih =>
    have hc : endsAtom c = false := endsAtom_eq_false hblank hbracket hcomment hquote
    have hend : ∀ l, (cutAtom (c = '\\') cs).2 = [] →
        run ⟨.code, l, false⟩ (cutAtom (c = '\\') cs).2 = [] := by
      intro l hnil
      rw [hnil]
      rfl
    rw [run_atom_start hc, tokensOf_blanks_append (lead_blank _ _), run_atom,
      tokensOf_atom_append hc (hend _), tokensOf_atom hc]
    generalize hx : (cutAtom (c = '\\') cs).1.getLastD c = x
    have hlast : (c :: (cutAtom (c = '\\') cs).1).getLast? = some x := by
      rw [List.getLast?_cons, ← List.getLastD_eq_getLast?, hx]
    show _ = Token.join _ (glue _)
    rw [← ih (some x) false]
    cases hopen : isOpening x with
    | true => exact (Token.join_atom (by rwa [hlast]) (isBlank_head_run hopen)).symm
    | false =>
      have hruns : ∀ u, Token.runsInto (.atom (c :: (cutAtom (c = '\\') cs).1)) u = false := by
        intro u
        cases u with
        | atom => simpa [Token.runsInto, hlast] using hopen
        | _ => rfl
      rw [cutAtom_of_stops (stops_run hopen (.inr stops_cutAtom)), List.append_nil,
        Token.join_of_not_runsInto fun u _ => hruns u]

theorem tokens_minify (code : String) : tokens (minify code) = glue (codeTokens code) := by
  rw [tokens, minify, String.toList_ofList]
  exact Squeeze.tokensOf_run none false code.toList

theorem isComment_of_mem_codeTokens {code : String} :
    ∀ t ∈ codeTokens code, t.isComment = false := by
  intro t ht
  simpa using List.of_mem_filter ht

theorem codeTokens_minify (code : String) : codeTokens (minify code) = glue (codeTokens code) := by
  rw [codeTokens, tokens_minify, List.filter_eq_self]
  intro t ht
  simpa using isComment_of_mem_glue isComment_of_mem_codeTokens t ht

theorem tokens_pretty (code : String) : tokens (pretty code) = tokens code := by
  rw [tokens, pretty, prettyWith, String.toList_ofList]
  exact Layout.plain_default.tokensOf_run 0 true code.toList

/-- No comment is left, and all other tokens are kept, also from the script laid out, just where no
token runs into the next. -/
theorem minify_keeps_tokens_iff (code : String) :
    (∀ t ∈ tokens (minify code), t.isComment = false) ∧
      ((codeTokens (minify code) = codeTokens code ∧
          codeTokens (minify (pretty code)) = codeTokens code) ↔ Apart (codeTokens code)) := by
  have hpretty : codeTokens (pretty code) = codeTokens code := by
    rw [codeTokens, tokens_pretty, codeTokens]
  constructor
  · rw [tokens_minify]
    exact isComment_of_mem_glue isComment_of_mem_codeTokens
  · rw [codeTokens_minify, codeTokens_minify, hpretty, and_self]
    exact glue_eq_self_iff

/-- The character literal of an opening bracket takes up the atom after it. -/
theorem not_minify_keeps_tokens : ¬∀ code, codeTokens (minify code) = codeTokens code := by
  intro h
  have hbefore : codeTokens "(f #\\( a)" =
      [.bracket '(', .atom ['f'], .atom ['#', '\\', '('], .atom ['a'], .bracket ')'] := by
    decide +kernel
  have hafter : codeTokens (minify "(f #\\( a)") =
      [.bracket '(', .atom ['f'], .atom ['#', '\\', '(', 'a'], .bracket ')'] := by decide +kernel
  rw [h, hbefore] at hafter
  cases hafter

end LispBridge.Format
