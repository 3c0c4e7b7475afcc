import LispBridge.Proofs.Library.Declaration
import LispBridge.Proofs.Number.Numeral

/-!
# The forms in which an entry is declared

A whole text declares an entry in one of three forms (`Declares`): a declaration, a name with a
number of parameters, or a name with the parameters in brackets. `Entry.ofText` accepts just these
texts, with blanks around them (`ofText_eq_ok_iff`), and names what it refuses
(`ofText_eq_error_iff`). Accepted entries are well-formed (`Declares.wellFormed`), and every
well-formed entry is accepted in two of the forms.
-/

namespace LispBridge.Library

open Chars

variable {t name count rest : List Char} {e e' : Entry} {s : String}

/-! ## The forms -/

/-- The texts that declare an entry as a whole. -/
inductive Declares : Entry → List Char → Prop
  /-- The full form, as in `(defjs f (a b))`. -/
  | full {e : Entry} {t : List Char} : Derives e t → Declares e t
  /-- The number of parameters alone, as in `f/2`. -/
  | arity {name gap gap' count : List Char} {n : Nat} : isIdent name = true → Blanks gap →
      Blanks gap' → Numeral n count → n < bound64 →
      Declares (.ofParams (String.ofList name) (.count n)) (name ++ gap ++ '/' :: (gap' ++ count))
  /-- The short form, as in `f(a b)`. -/
  | short {name gap : List Char} {params list} : isIdent name = true → Blanks gap →
      Bracketed params list →
      Declares ⟨String.ofList name, params.map String.ofList⟩ (name ++ gap ++ list)

/-- A text that declares an entry declares a well-formed one. -/
theorem Declares.wellFormed (h : Declares e t) : e.WellFormed := by
  cases h with
  | full h => exact h.wellFormed
  | arity hname => exact Entry.wellFormed_ofParams_count (by rwa [String.toList_ofList]) _
  | short hname _ hlist =>
    refine ⟨by rwa [String.toList_ofList], fun p hp => ?_⟩
    obtain ⟨w, hw, rfl⟩ := List.mem_map.mp hp
    rw [String.toList_ofList]
    exact (bracketed_iff.mp hlist).1 w hw

/-! ## No blanks at the ends -/

theorem isWord_of_numeral {n : Nat} (h : Numeral n count) : IsWord count := by
  obtain ⟨hplus, hne, hall⟩ := h
  refine ⟨by simp [hne], List.forall_mem_append.mpr ⟨?_, fun c hc => ?_⟩⟩
  · obtain rfl | rfl := hplus
    · exact List.forall_mem_nil _
    · exact List.forall_mem_singleton.mpr (by decide)
  · exact isBlank_eq_false_of_isIdentChar (by simp [isIdentChar, Char.isAlphanum, hall c hc])

theorem Bracketed.exists_bracket {params : List (List Char)} (h : Bracketed params t) :
    ∃ rest, t = '(' :: rest := by
  cases h
  exact ⟨_, rfl⟩

theorem Bracketed.getLast? {params : List (List Char)} (h : Bracketed params t) :
    t.getLast? = some ')' := by
  cases h
  exact List.getLast?_concat

theorem Derives.getLast? (h : Derives e t) : t.getLast? = some ')' := by
  cases h
  simp only [← List.append_assoc, List.getLast?_concat]

theorem isBlank_last_of_getLast? {front : List Char} (h : t.getLast? = some ')') :
    ∀ c ∈ (front ++ t).getLast?, isBlank c = false := by
  intro c hc
  rw [List.getLast?_append, h] at hc
  cases hc
  decide

theorem Declares.trimmed (h : Declares e t) : Trimmed t := by
  cases h with
  | full h =>
    refine ⟨fun c hc => ?_, @isBlank_last_of_getLast? t [] h.getLast?⟩
    obtain ⟨rest, rfl⟩ := h.exists_bracket
    cases hc
    decide
  | arity hname _ _ hcount =>
    refine ⟨?_, ?_⟩
    · rw [List.append_assoc]
      exact (isWord_of_isIdent hname).isBlank_head
    · rw [List.append_cons, ← List.append_assoc]
      exact (isWord_of_numeral hcount).isBlank_last
  | short hname _ hlist =>
    refine ⟨?_, isBlank_last_of_getLast? hlist.getLast?⟩
    rw [List.append_assoc]
    exact (isWord_of_isIdent hname).isBlank_head

/-! ## Reading -/

theorem dropLast?_eq_some_iff {x : Char} {inner : List Char} :
    dropLast? x t = some inner ↔ t = inner ++ [x] := by
  rw [dropLast?, Option.ite_none_right_eq_some, Option.some.injEq]
  constructor
  · rintro ⟨hlast, rfl⟩
    obtain ⟨inner, rfl⟩ := List.getLast?_eq_some_iff.mp hlast
    rw [List.dropLast_concat]
  · rintro rfl
    exact ⟨List.getLast?_concat, List.dropLast_concat⟩

theorem arityForm?_eq_some_iff : arityForm? name count = some e ↔ ∃ n,
    (Numeral n (trim count) ∧ n < bound64) ∧ isIdent (trim name) = true ∧
      e = .ofParams (String.ofList (trim name)) (.count n) := by
  rw [arityForm?, Option.bind_eq_some_iff]
  simp only [Option.ite_none_right_eq_some, Option.some.injEq, unsigned?_eq_some_iff,
    eq_comm (b := e)]

theorem shortForm?_eq_some_iff : shortForm? name rest = some e ↔ ∃ params,
    isIdent (trim name) = true ∧ Bracketed params ('(' :: rest) ∧
      e = ⟨String.ofList (trim name), params.map String.ofList⟩ := by
  rw [shortForm?, Option.bind_eq_some_iff]
  simp only [Option.ite_none_right_eq_some, Option.some.injEq, dropLast?_eq_some_iff,
    Bool.and_eq_true, List.all_eq_true, bracketed_iff]
  constructor
  · rintro ⟨inner, rfl, ⟨hname, hparams⟩, rfl⟩
    exact ⟨words inner, hname, ⟨hparams, inner, rfl, rfl⟩, rfl⟩
  · rintro ⟨_, hname, ⟨hparams, inner, rfl, heq⟩, rfl⟩
    exact ⟨inner, (List.cons.inj heq).2, ⟨hname, hparams⟩, rfl⟩

theorem declares_of_entryOf? (ht : Trimmed t) (h : entryOf? t = some e) : Declares e t := by
  rw [entryOf?] at h
  split at h
  · split at h
    · next hread =>
      cases h
      obtain ⟨text, hderives, heq⟩ := declarationAt?_eq_some_iff.mp hread
      rw [List.append_nil] at heq
      exact .full (heq ▸ hderives)
    · cases h
  split at h
  · next name count hcut =>
    obtain ⟨rfl, -⟩ := splitOnce_eq_some_iff.mp hcut
    obtain ⟨n, ⟨hcount, hlt⟩, hname, rfl⟩ := arityForm?_eq_some_iff.mp h
    obtain ⟨gap, hgap, hbefore⟩ := ht.exists_eq_trim_append
    obtain ⟨gap', hgap', hafter⟩ := ht.exists_eq_append_trim
    have hdeclares := Declares.arity hname hgap hgap' hcount hlt
    rwa [← hbefore, ← hafter] at hdeclares
  split at h
  · next name rest hcut =>
    obtain ⟨rfl, -⟩ := splitOnce_eq_some_iff.mp hcut
    obtain ⟨params, hname, hlist, rfl⟩ := shortForm?_eq_some_iff.mp h
    obtain ⟨gap, hgap, hbefore⟩ := ht.exists_eq_trim_append
    have hdeclares := Declares.short hname hgap hlist
    rwa [← hbefore] at hdeclares
  · cases h

/-- Neither in a name nor in the blanks after it stands a mark. -/
theorem not_mem_name_append {gap : List Char} {x : Char} (hname : isIdent name = true)
    (hgap : Blanks gap) (hident : isIdentChar x = false) (hblank : isBlank x = false) :
    x ∉ name ++ gap := by
  intro hx
  obtain hx | hx := List.mem_append.mp hx
  · rw [(isIdent_iff.mp hname).2 x hx] at hident
    cases hident
  · rw [hgap x hx] at hblank
    cases hblank

theorem Bracketed.not_mem {params : List (List Char)} {x : Char} (h : Bracketed params t)
    (hident : isIdentChar x = false) (hblank : isBlank x = false) (hbrackets : x ≠ '(' ∧ x ≠ ')') :
    x ∉ t := by
  obtain ⟨hparams, inner, rfl, rfl⟩ := bracketed_iff.mp h
  intro hx
  rw [List.cons_append, List.mem_cons, List.mem_append, List.mem_singleton] at hx
  obtain rfl | hx | rfl := hx
  · exact hbrackets.1 rfl
  · have hchar := forall_isIdent_words_iff.mp hparams x hx
    rw [hident, hblank] at hchar
    cases hchar
  · exact hbrackets.2 rfl

theorem head?_name_append (hname : isIdent name = true) (rest : List Char) :
    (name ++ rest).head? ≠ some '(' := by
  obtain ⟨hne, hall⟩ := isIdent_iff.mp hname
  obtain ⟨c, name, rfl⟩ := List.exists_cons_of_ne_nil hne
  rintro ⟨⟩
  cases hall '(' List.mem_cons_self

theorem trim_name_append {gap : List Char} (hname : isIdent name = true) (hgap : Blanks gap) :
    trim (name ++ gap) = name :=
  trim_append (isWord_of_isIdent hname).trimmed (List.forall_mem_nil _) hgap

theorem Declares.entryOf?_eq (h : Declares e t) : entryOf? t = some e := by
  rw [entryOf?]
  cases h with
  | full h =>
    obtain ⟨rest, hrest⟩ := h.exists_bracket
    have hread : declarationAt? t = some (e, []) :=
      declarationAt?_eq_some_iff.mpr ⟨t, h, (List.append_nil t).symm⟩
    have hhead : t.head? = some '(' := congrArg List.head? hrest
    rw [if_pos hhead, hread]
  | @arity name gap gap' count n hname hgap hgap' hcount hlt =>
    have hcut : splitOnce '/' (name ++ gap ++ '/' :: (gap' ++ count)) =
        some (name ++ gap, gap' ++ count) :=
      splitOnce_eq_some_iff.mpr ⟨rfl, not_mem_name_append hname hgap (by decide) (by decide)⟩
    have htrim : trim (gap' ++ (count ++ [])) = count :=
      trim_append (isWord_of_numeral hcount).trimmed hgap' (List.forall_mem_nil _)
    rw [List.append_nil] at htrim
    have hname' := trim_name_append hname hgap
    rw [List.append_assoc, if_neg (head?_name_append hname _), ← List.append_assoc, hcut]
    exact arityForm?_eq_some_iff.mpr ⟨n, htrim.symm ▸ ⟨hcount, hlt⟩, by rwa [hname'],
      by rw [hname']⟩
  | @short name gap params list hname hgap hlist =>
    have hcut : splitOnce '/' (name ++ gap ++ list) = none := by
      rw [splitOnce_eq_none_iff, List.mem_append, not_or]
      exact ⟨not_mem_name_append hname hgap (by decide) (by decide),
        hlist.not_mem (by decide) (by decide) (by decide)⟩
    obtain ⟨rest, rfl⟩ := hlist.exists_bracket
    have hcut' : splitOnce '(' (name ++ gap ++ '(' :: rest) = some (name ++ gap, rest) :=
      splitOnce_eq_some_iff.mpr ⟨rfl, not_mem_name_append hname hgap (by decide) (by decide)⟩
    have hname' := trim_name_append hname hgap
    rw [hcut, hcut', List.append_assoc, if_neg (head?_name_append hname _)]
    exact shortForm?_eq_some_iff.mpr ⟨params, by rwa [hname'], hlist, by rw [hname']⟩

theorem entryOf?_eq_some_iff (ht : Trimmed t) : entryOf? t = some e ↔ Declares e t :=
  ⟨declares_of_entryOf? ht, Declares.entryOf?_eq⟩

/-! ## Whole texts -/

namespace Entry

/-- A text is accepted just if what is left of it between blanks declares the entry. -/
theorem ofText_eq_ok_iff : ofText s = .ok e ↔ Declares e (trim s.toList) := by
  rw [← entryOf?_eq_some_iff (trimmed_trim s.toList), ofText]
  cases entryOf? (trim s.toList) <;> simp

/-- A text that is refused is named without the blanks around it. -/
theorem ofText_eq_error_iff {err : DeclarationError} : ofText s = .error err ↔
    (∀ e, ¬Declares e (trim s.toList)) ∧ err = ⟨String.ofList (trim s.toList)⟩ := by
  simp only [← entryOf?_eq_some_iff (trimmed_trim s.toList), ofText]
  cases entryOf? (trim s.toList) <;> simp [eq_comm]

theorem ofText_of_declares (h : Declares e s.toList) : ofText s = .ok e := by
  rwa [ofText_eq_ok_iff, h.trimmed.trim_eq]

theorem wellFormed_of_ofText (h : ofText s = .ok e) : e.WellFormed :=
  (ofText_eq_ok_iff.mp h).wellFormed

theorem ofText_declaration (h : e.WellFormed) : ofText e.declaration = .ok e :=
  ofText_of_declares (.full (derives_declaration h))

/-- The short form of an entry's declaration. -/
def short (e : Entry) : String :=
  e.name ++ "(" ++ " ".intercalate e.params ++ ")"

theorem ofText_short (h : e.WellFormed) : ofText e.short = .ok e := by
  have hdeclares := Declares.short h.1 (List.forall_mem_nil _) (bracketed_params h)
  rw [e.ofList_toList, List.append_nil] at hdeclares
  have htext : e.short.toList =
      e.name.toList ++ ('(' :: [' '].intercalate (e.params.map String.toList) ++ [')']) := by
    simp only [short, String.toList_append, String.toList_intercalate, List.append_assoc]
    rfl
  exact ofText_of_declares (htext ▸ hdeclares)

end Entry

end LispBridge.Library
