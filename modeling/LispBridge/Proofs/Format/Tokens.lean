import LispBridge.Chars.Blank
import LispBridge.Format.Mode
import LispBridge.Proofs.Chars.Lines
import Mathlib.Data.List.Basic
import Mathlib.Data.List.TakeWhile

/-!
# Tokens of a script

`tokensOf` cuts a text into brackets, strings, atoms and comments; each token has its text as it
stands in the script, and blanks do no more than separate tokens. The cuts are made token by token
and share nothing with the scans of this library. What a token comes to when more text follows
(`tokensOf_comment_append`, `tokensOf_string_append`, `tokensOf_atom_append`) is what the proofs
about those scans rest on. A word of atom characters lies within one token, so scripts with the same
tokens hold the same words (`contains_congr_tokensOf`).
-/

namespace LispBridge.Format

open Chars

inductive Token
  | bracket (c : Char)
  | string (text : List Char)
  | atom (text : List Char)
  | comment (text : List Char)
  deriving DecidableEq, Repr

namespace Token

/-- What stands in the script. -/
def text : Token → List Char
  | .bracket c => [c]
  | .string text | .atom text | .comment text => text

def isComment : Token → Bool
  | .comment _ => true
  | _ => false

end Token

def isBracket (c : Char) : Bool := c = '(' || c = ')' || c = '[' || c = ']'

/-- Whether a character that no backslash precedes ends an atom. -/
def endsAtom (c : Char) : Bool := isBlank c || isBracket c || c = ';' || c = '"'

/-- Cuts a text after the string that has begun before it; one that nothing ends takes all of it.
`escaped` says whether a backslash precedes the text. -/
def cutString : (escaped : Bool) → List Char → List Char × List Char
  | _, [] => ([], [])
  | true, c :: cs => (cutString false cs).map (c :: ·) id
  | false, c :: cs =>
    if c = '"' then ([c], cs) else (cutString (c = '\\') cs).map (c :: ·) id

/-- Cuts a text after the atom that has begun before it. -/
def cutAtom : (escaped : Bool) → List Char → List Char × List Char
  | _, [] => ([], [])
  | true, c :: cs => (cutAtom false cs).map (c :: ·) id
  | false, c :: cs =>
    if endsAtom c then ([], c :: cs) else (cutAtom (c = '\\') cs).map (c :: ·) id

variable {c : Char} {cs R : List Char} {escaped : Bool}

theorem cutString_append (escaped : Bool) (cs : List Char) :
    (cutString escaped cs).1 ++ (cutString escaped cs).2 = cs := by
  fun_induction cutString escaped cs <;> simp_all

theorem cutAtom_append (escaped : Bool) (cs : List Char) :
    (cutAtom escaped cs).1 ++ (cutAtom escaped cs).2 = cs := by
  fun_induction cutAtom escaped cs <;> simp_all

theorem length_cutString_le : (cutString escaped cs).2.length ≤ cs.length := by
  have hcut := congrArg List.length (cutString_append escaped cs)
  rw [List.length_append] at hcut
  omega

theorem length_cutAtom_le : (cutAtom escaped cs).2.length ≤ cs.length := by
  have hcut := congrArg List.length (cutAtom_append escaped cs)
  rw [List.length_append] at hcut
  omega

/-- The tokens of a text, in order. -/
def tokensOf : List Char → List Token
  | [] => []
  | c :: cs =>
    if isBlank c then tokensOf cs
    else if isBracket c then .bracket c :: tokensOf cs
    else if c = ';' then
      .comment (c :: cs.takeWhile (!isBreak ·)) :: tokensOf (cs.dropWhile (!isBreak ·))
    else if c = '"' then .string (c :: (cutString false cs).1) :: tokensOf (cutString false cs).2
    else
      .atom (c :: (cutAtom (c = '\\') cs).1) :: tokensOf (cutAtom (c = '\\') cs).2
termination_by cs => cs.length
decreasing_by
  · simp
  · simp
  · exact Nat.lt_succ_of_le (List.dropWhile_suffix _).length_le
  · exact Nat.lt_succ_of_le length_cutString_le
  · exact Nat.lt_succ_of_le length_cutAtom_le

/-- The tokens of a script. -/
def tokens (code : String) : List Token := tokensOf code.toList

/-- The tokens of a script that are no comments. -/
def codeTokens (code : String) : List Token := (tokens code).filter (!·.isComment)

/-! ## Kinds of characters -/

theorem isBlank_of_isBreak (h : isBreak c = true) : isBlank c = true := by
  simp only [isBreak, Bool.or_eq_true, decide_eq_true_eq] at h
  rcases h with rfl | rfl <;> decide

theorem isBracket_iff : isBracket c = true ↔ c = '(' ∨ c = ')' ∨ c = '[' ∨ c = ']' := by
  simp [isBracket, or_assoc]

theorem isBlank_eq_false_of_isBracket (h : isBracket c = true) : isBlank c = false := by
  rcases isBracket_iff.mp h with rfl | rfl | rfl | rfl <;> decide

theorem endsAtom_of_isBlank (h : isBlank c = true) : endsAtom c = true := by simp [endsAtom, h]

theorem endsAtom_of_isBracket (h : isBracket c = true) : endsAtom c = true := by simp [endsAtom, h]

theorem endsAtom_eq_false_iff :
    endsAtom c = false ↔ isBlank c = false ∧ isBracket c = false ∧ c ≠ ';' ∧ c ≠ '"' := by
  simp [endsAtom, and_assoc]

theorem endsAtom_eq_false (hblank : ¬isBlank c = true) (hbracket : ¬isBracket c = true)
    (hcomment : c ≠ ';') (hquote : c ≠ '"') : endsAtom c = false := by
  simp [endsAtom, hblank, hbracket, hcomment, hquote]

theorem ne_of_endsAtom {b : Char} (hc : endsAtom c = false) (hb : endsAtom b = true) : c ≠ b := by
  rintro rfl
  rw [hc] at hb
  cases hb

/-- No atom goes on with this text. -/
def Stops (cs : List Char) : Prop := ∀ c ∈ cs.head?, endsAtom c = true

theorem Stops.nil : Stops [] := by simp [Stops]

theorem stops_cons : Stops (c :: cs) ↔ endsAtom c = true := by simp [Stops]

/-! ## One token and what follows -/

@[simp] theorem tokensOf_nil : tokensOf [] = [] := by rw [tokensOf]

theorem tokensOf_blank (h : isBlank c = true) : tokensOf (c :: cs) = tokensOf cs := by
  rw [tokensOf, if_pos h]

theorem tokensOf_bracket (h : isBracket c = true) :
    tokensOf (c :: cs) = .bracket c :: tokensOf cs := by
  rw [tokensOf, if_neg (by simp [isBlank_eq_false_of_isBracket h]), if_pos h]

theorem tokensOf_comment : tokensOf (';' :: cs) =
    .comment (';' :: cs.takeWhile (!isBreak ·)) :: tokensOf (cs.dropWhile (!isBreak ·)) := by
  rw [tokensOf, if_neg (by decide), if_neg (by decide), if_pos rfl]

theorem tokensOf_string : tokensOf ('"' :: cs) =
    .string ('"' :: (cutString false cs).1) :: tokensOf (cutString false cs).2 := by
  rw [tokensOf, if_neg (by decide), if_neg (by decide), if_neg (by decide), if_pos rfl]

theorem tokensOf_atom (h : endsAtom c = false) : tokensOf (c :: cs) =
    .atom (c :: (cutAtom (c = '\\') cs).1) :: tokensOf (cutAtom (c = '\\') cs).2 := by
  obtain ⟨hblank, hbracket, hcomment, hquote⟩ := endsAtom_eq_false_iff.mp h
  rw [tokensOf, if_neg (by simp [hblank]), if_neg (by simp [hbracket]), if_neg hcomment,
    if_neg hquote]

theorem tokensOf_blanks_append (h : ∀ c ∈ R, isBlank c = true) :
    tokensOf (R ++ cs) = tokensOf cs := by
  induction R with
  | nil => rfl
  | cons c R ih =>
    obtain ⟨hc, h⟩ := List.forall_mem_cons.mp h
    rw [List.cons_append, tokensOf_blank hc, ih h]

theorem tokensOf_comment_append (h : ∀ c ∈ R.head?, isBreak c = true) :
    tokensOf (';' :: (cs.takeWhile (!isBreak ·) ++ R)) =
      .comment (';' :: cs.takeWhile (!isBreak ·)) :: tokensOf R := by
  have hrun : ∀ c ∈ cs.takeWhile (!isBreak ·), (!isBreak c) = true := fun c =>
    List.mem_takeWhile_imp
  have hrest : ∀ c ∈ R.head?, (!isBreak c) = false := fun c hc => by simp [h c hc]
  rw [tokensOf_comment, takeWhile_append_eq hrun hrest, dropWhile_append_eq hrun hrest]

/-- A comment is followed by the end of its line. -/
theorem isBreak_head_dropWhile : ∀ c ∈ (cs.dropWhile (!isBreak ·)).head?, isBreak c = true := by
  intro c hc
  have hnot := List.head?_dropWhile_not (!isBreak ·) cs
  rw [Option.mem_def.mp hc] at hnot
  simpa using hnot

/-- A string that has ended is cut off whatever follows; nothing can follow one that has not. -/
theorem cutString_append_right (h : (cutString escaped cs).2 = [] → R = []) :
    cutString escaped ((cutString escaped cs).1 ++ R) = ((cutString escaped cs).1, R) := by
  fun_induction cutString escaped cs with
  | case1 => rw [h rfl]; rfl
  | case2 c cs ih =>
    rw [Prod.map_fst, List.cons_append, cutString, ih h]
    rfl
  | case3 cs => rfl
  | case4 c cs hc ih =>
    rw [Prod.map_fst, List.cons_append, cutString, if_neg hc, ih h]
    rfl

theorem tokensOf_string_append (h : (cutString false cs).2 = [] → R = []) :
    tokensOf ('"' :: ((cutString false cs).1 ++ R)) =
      .string ('"' :: (cutString false cs).1) :: tokensOf R := by
  rw [tokensOf_string, cutString_append_right h]

theorem stops_cutAtom : Stops (cutAtom escaped cs).2 := by
  fun_induction cutAtom escaped cs with
  | case1 => exact .nil
  | case2 c cs ih => exact ih
  | case3 c cs hc => exact stops_cons.mpr hc
  | case4 c cs hc ih => exact ih

theorem cutAtom_of_stops (h : Stops R) : cutAtom false R = ([], R) := by
  cases R with
  | nil => rfl
  | cons c R => rw [cutAtom, if_pos (stops_cons.mp h)]

/-- An atom goes on with what follows, up to where that stops. -/
theorem cutAtom_append_right (h : (cutAtom escaped cs).2 = [] → R = []) :
    cutAtom escaped ((cutAtom escaped cs).1 ++ R) =
      ((cutAtom escaped cs).1 ++ (cutAtom false R).1, (cutAtom false R).2) := by
  fun_induction cutAtom escaped cs with
  | case1 => rw [h rfl]; rfl
  | case2 c cs ih =>
    rw [Prod.map_fst, List.cons_append, cutAtom, ih h]
    rfl
  | case3 c cs hc => rfl
  | case4 c cs hc ih =>
    rw [Prod.map_fst, List.cons_append, cutAtom, if_neg hc, ih h]
    rfl

theorem tokensOf_atom_append (hc : endsAtom c = false)
    (h : (cutAtom (c = '\\') cs).2 = [] → R = []) :
    tokensOf (c :: ((cutAtom (c = '\\') cs).1 ++ R)) =
      .atom (c :: (cutAtom (c = '\\') cs).1 ++ (cutAtom false R).1) ::
        tokensOf (cutAtom false R).2 := by
  rw [tokensOf_atom hc, cutAtom_append_right h]
  rfl

/-- The tokens hold all of a text but the blanks between them. -/
theorem filter_text_tokensOf (cs : List Char) :
    ((tokensOf cs).flatMap Token.text).filter (!isBlank ·) = cs.filter (!isBlank ·) := by
  induction cs using tokensOf.induct with
  | case1 => rw [tokensOf_nil, List.flatMap_nil]
  | case2 c cs hblank ih =>
    rw [tokensOf_blank hblank, ih, List.filter_cons_of_neg (by simpa using hblank)]
  | case3 c cs _ hbracket ih =>
    rw [tokensOf_bracket hbracket, List.flatMap_cons, List.filter_append, ih, Token.text,
      ← List.filter_append, List.singleton_append]
  | case4 cs _ _ ih =>
    rw [tokensOf_comment, List.flatMap_cons, List.filter_append, ih, Token.text,
      ← List.filter_append, List.cons_append, List.takeWhile_append_dropWhile]
  | case5 cs _ _ _ ih =>
    rw [tokensOf_string, List.flatMap_cons, List.filter_append, ih, Token.text,
      ← List.filter_append, List.cons_append, cutString_append]
  | case6 c cs hblank hbracket hcomment hquote ih =>
    have hc : endsAtom c = false := endsAtom_eq_false hblank hbracket hcomment hquote
    rw [tokensOf_atom hc, List.flatMap_cons, List.filter_append, ih, Token.text,
      ← List.filter_append, List.cons_append, cutAtom_append]

/-! ## Texts in tokens -/

/-- A string that something follows ends in a quote. -/
theorem getLast?_cutString (h : (cutString escaped cs).2 ≠ []) :
    (cutString escaped cs).1.getLast? = some '"' := by
  fun_induction cutString escaped cs with
  | case1 => exact absurd rfl h
  | case2 c cs ih =>
    have ih := ih h
    rw [Prod.map_fst, List.getLast?_cons, ih]
    rfl
  | case3 cs => rfl
  | case4 c cs hc ih =>
    have ih := ih h
    rw [Prod.map_fst, List.getLast?_cons, ih]
    rfl

/-- A text without the character on one side of a cut lies on one side of it. -/
theorem infix_append_iff_of_cut {w a b : List Char}
    (h : (∀ c ∈ a.getLast?, c ∉ w) ∨ ∀ c ∈ b.head?, c ∉ w) :
    w <:+: a ++ b ↔ w <:+: a ∨ w <:+: b := by
  refine ⟨fun hin => ?_, fun hor => ?_⟩
  · rcases List.infix_append_iff.mp hin with ha | hb | ⟨w₁, w₂, rfl, ⟨front, rfl⟩, ⟨rest, rfl⟩⟩
    · exact .inl ha
    · exact .inr hb
    rcases List.eq_nil_or_concat' w₁ with rfl | ⟨w₁, c, rfl⟩
    · exact .inr (List.prefix_append w₂ rest).isInfix
    cases w₂ with
    | nil => exact .inl (by rw [List.append_nil]; exact (List.suffix_append front _).isInfix)
    | cons c' w₂ =>
      rcases h with h | h
      · exact absurd (by simp) (h c (by rw [← List.append_assoc]; exact List.getLast?_concat))
      · exact absurd (by simp) (h c' rfl)
  · rcases hor with ha | hb
    · exact ha.trans (List.prefix_append a b).isInfix
    · exact hb.trans (List.suffix_append a b).isInfix

/-- A text in which no atom ends is not cut by the ends of tokens. -/
theorem infix_iff_exists_token {w : List Char} (hne : w ≠ []) (hw : ∀ c ∈ w, endsAtom c = false)
    (cs : List Char) : w <:+: cs ↔ ∃ t ∈ tokensOf cs, w <:+: t.text := by
  have hnot : ∀ {c}, endsAtom c = true → c ∉ w := fun hc hmem => by
    rw [hw _ hmem] at hc
    cases hc
  have hstep {cs rest : List Char} {t : Token} (htokens : tokensOf cs = t :: tokensOf rest)
      (htext : cs = t.text ++ rest)
      (hcut : (∀ c ∈ t.text.getLast?, c ∉ w) ∨ ∀ c ∈ rest.head?, c ∉ w)
      (ih : w <:+: rest ↔ ∃ t ∈ tokensOf rest, w <:+: t.text) :
      w <:+: cs ↔ ∃ t ∈ tokensOf cs, w <:+: t.text := by
    rw [htokens, List.exists_mem_cons_iff, ← ih, htext]
    exact infix_append_iff_of_cut hcut
  induction cs using tokensOf.induct with
  | case1 => simpa using hne
  | case2 c cs hblank ih =>
    rw [tokensOf_blank hblank]
    refine .trans ?_ ih
    rw [List.infix_cons_iff, List.prefix_cons_iff]
    refine or_iff_right ?_
    rintro (rfl | ⟨w, rfl, -⟩)
    · exact hne rfl
    · exact hnot (endsAtom_of_isBlank hblank) List.mem_cons_self
  | case3 c cs _ hbracket ih =>
    refine hstep (tokensOf_bracket hbracket) rfl (.inl fun c' hc' => ?_) ih
    cases hc'
    exact hnot (endsAtom_of_isBracket hbracket)
  | case4 cs _ _ ih =>
    have htext : ';' :: cs = ';' :: cs.takeWhile (!isBreak ·) ++ cs.dropWhile (!isBreak ·) := by
      rw [List.cons_append, List.takeWhile_append_dropWhile]
    refine hstep tokensOf_comment htext (.inr fun c hc => ?_) ih
    exact hnot (endsAtom_of_isBlank (isBlank_of_isBreak (isBreak_head_dropWhile c hc)))
  | case5 cs _ _ _ ih =>
    have htext : '"' :: cs = '"' :: (cutString false cs).1 ++ (cutString false cs).2 := by
      rw [List.cons_append, cutString_append]
    refine hstep tokensOf_string htext ?_ ih
    by_cases hnil : (cutString false cs).2 = []
    · exact .inr (by simp [hnil])
    · refine .inl fun c hc => ?_
      rw [Token.text, List.getLast?_cons, getLast?_cutString hnil] at hc
      cases hc
      exact hnot (by decide)
  | case6 c cs hblank hbracket hcomment hquote ih =>
    have hc : endsAtom c = false := endsAtom_eq_false hblank hbracket hcomment hquote
    have htext : c :: cs = c :: (cutAtom (c = '\\') cs).1 ++ (cutAtom (c = '\\') cs).2 := by
      rw [List.cons_append, cutAtom_append]
    exact hstep (tokensOf_atom hc) htext (.inr fun c hc => hnot (stops_cutAtom c hc)) ih

/-- So it can be found in a text just if it can be found in one with the same tokens. -/
theorem contains_congr_tokensOf {w cs' : List Char} (hw : ∀ c ∈ w, endsAtom c = false)
    (h : tokensOf cs = tokensOf cs') : contains w cs = contains w cs' := by
  rw [Bool.eq_iff_iff, contains_eq_true_iff, contains_eq_true_iff]
  by_cases hne : w = []
  · simp [hne]
  · rw [infix_iff_exists_token hne hw, infix_iff_exists_token hne hw, h]

/-! ## The mode of a scan along a token -/

namespace Mode

def inString (escaped : Bool) : Mode := if escaped then .stringEscaped else .string

def inAtom (escaped : Bool) : Mode := if escaped then .escaped else .code

@[simp] theorem inAtom_false : inAtom false = code := rfl

theorem next_inString (hc : c ≠ '"') : (inString false).next c = inString (c = '\\') := by
  by_cases h : c = '\\' <;> simp [inString, next, h, hc]

theorem next_inAtom (hc : endsAtom c = false) : (inAtom false).next c = inAtom (c = '\\') := by
  obtain ⟨-, -, hcomment, hquote⟩ := endsAtom_eq_false_iff.mp hc
  by_cases h : c = '\\' <;> simp [inAtom, next, h, hcomment, hquote]

/-- Between tokens a scan goes on in code. -/
theorem next_code (hc : isBlank c = true ∨ isBracket c = true) : code.next c = code := by
  have hescape : c ≠ '\\' := by rintro rfl; revert hc; decide
  have hquote : c ≠ '"' := by rintro rfl; revert hc; decide
  have hcomment : c ≠ ';' := by rintro rfl; revert hc; decide
  simp [next, hescape, hquote, hcomment]

end Mode

end LispBridge.Format
