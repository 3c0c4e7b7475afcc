import LispBridge.Library.Declaration
import LispBridge.Proofs.Chars.Words

/-!
# Reading declarations

The texts of declarations are given by a grammar (`Derives`), and the reader finds what the grammar
derives (`declarationAt?_eq_some_iff`). So the declaration of an entry whose names are identifiers
is read back wherever it stands (`declarationAt?_declaration`), also as the first one of a line that
starts otherwise (`findDeclaration?_append`).
-/

namespace LispBridge.Library

open Chars

/-! ## Identifiers -/

/-- The code points of letters, digits and the underscore. -/
theorem toNat_of_isIdentChar {c : Char} (h : isIdentChar c = true) :
    (65 ≤ c.toNat ∧ c.toNat ≤ 90) ∨ (97 ≤ c.toNat ∧ c.toNat ≤ 122) ∨
      (48 ≤ c.toNat ∧ c.toNat ≤ 57) ∨ c.toNat = 95 := by
  delta isIdentChar Char.isAlphanum Char.isAlpha Char.isUpper Char.isLower Char.isDigit at h
  simp only [Bool.or_eq_true, Bool.and_eq_true, decide_eq_true_eq, ge_iff_le,
    UInt32.le_iff_toNat_le] at h
  rcases h with ((h | h) | h) | rfl
  · exact .inl h
  · exact .inr (.inl h)
  · exact .inr (.inr (.inl h))
  · exact .inr (.inr (.inr rfl))

theorem isBlank_eq_false_of_isIdentChar {c : Char} (h : isIdentChar c = true) :
    isBlank c = false := by
  have hn := toNat_of_isIdentChar h
  simp only [isBlank, blankRanges, List.any_cons, List.any_nil, Bool.or_false, Bool.or_eq_false_iff,
    Bool.and_eq_false_iff, decide_eq_false_iff_not, Nat.not_le]
  omega

theorem isIdentChar_eq_false_of_isBlank {c : Char} (h : isBlank c = true) :
    isIdentChar c = false := by
  by_contra hident
  rw [isBlank_eq_false_of_isIdentChar (Bool.not_eq_false _ ▸ hident)] at h
  cases h

theorem toList_placeholder (i : Nat) : (placeholder i).toList = '_' :: Nat.toDigits 10 i := by
  simp [placeholder, toString, Nat.repr]

theorem isIdent_placeholder (i : Nat) : isIdent (placeholder i).toList = true := by
  have hdigits : ∀ c ∈ Nat.toDigits 10 i, isIdentChar c = true := by
    intro c hc
    have hdigit := Nat.isDigit_of_mem_toDigits (by decide) (by decide) hc
    simp [isIdentChar, Char.isAlphanum, hdigit]
  rw [toList_placeholder, isIdent, List.all_cons, List.all_eq_true.mpr hdigits]
  rfl

/-- Different parameters have different placeholders, for a number can be told from its digits. -/
theorem placeholder_injective : Function.Injective placeholder := by
  intro i j h
  have hlist := congrArg String.toList h
  rw [toList_placeholder, toList_placeholder] at hlist
  have hdigits : Nat.toDigits 10 i = Nat.toDigits 10 j := (List.cons.inj hlist).2
  rw [← Nat.ofDigitChars_ten_toDigits (n := i), hdigits, Nat.ofDigitChars_ten_toDigits]

/-- Parameters that are given by their number alone have identifiers for names. -/
theorem Entry.wellFormed_ofParams_count {name : String} (h : isIdent name.toList = true) (n : Nat) :
    (ofParams name (.count n)).WellFormed := by
  refine ⟨h, fun p hp => ?_⟩
  obtain ⟨i, -, rfl⟩ := List.mem_map.mp hp
  exact isIdent_placeholder i

theorem isIdent_iff {w : List Char} :
    isIdent w = true ↔ w ≠ [] ∧ ∀ c ∈ w, isIdentChar c = true := by
  simp [isIdent]

theorem isWord_of_isIdent {w : List Char} (h : isIdent w = true) : IsWord w := by
  obtain ⟨hne, hchars⟩ := isIdent_iff.mp h
  exact ⟨hne, fun c hc => isBlank_eq_false_of_isIdentChar (hchars c hc)⟩

/-- The words of a text are identifiers just if it consists of their characters and blanks. -/
theorem forall_isIdent_words_iff {cs : List Char} : (∀ w ∈ words cs, isIdent w = true) ↔
    ∀ c ∈ cs, (isIdentChar c || isBlank c) = true := by
  constructor
  · intro h c hc
    obtain ⟨w, hw, hc⟩ | hblank := mem_words_or_isBlank hc
    · rw [(isIdent_iff.mp (h w hw)).2 c hc, Bool.true_or]
    · rw [hblank, Bool.or_true]
  · intro h w hw
    obtain ⟨hne, hnonblank⟩ := isWord_of_mem_words hw
    refine isIdent_iff.mpr ⟨hne, fun c hc => ?_⟩
    have hchar := h c (mem_of_mem_words hw hc)
    rwa [hnonblank c hc, Bool.or_false] at hchar

theorem mem_intercalate_blank {c : Char} {ws : List (List Char)}
    (h : c ∈ [' '].intercalate ws) : c = ' ' ∨ ∃ w ∈ ws, c ∈ w := by
  cases ws with
  | nil => cases h
  | cons w ws =>
    induction ws generalizing w with
    | nil =>
      rw [List.intercalate_singleton] at h
      exact .inr ⟨w, List.mem_cons_self, h⟩
    | cons w' ws ih =>
      rw [List.intercalate_cons_cons, List.append_assoc, List.mem_append] at h
      rcases h with h | h
      · exact .inr ⟨w, List.mem_cons_self, h⟩
      rcases List.mem_cons.mp h with rfl | h
      · exact .inl rfl
      rcases ih w' h with h | ⟨v, hv, hc⟩
      · exact .inl h
      · exact .inr ⟨v, List.mem_cons_of_mem w hv, hc⟩

/-! ## The grammar -/

/-- The texts of identifiers in brackets, with blanks between them and perhaps at the ends. -/
inductive Bracketed : List (List Char) → List Char → Prop
  | intro {params list front back} : (∀ p ∈ params, isIdent p = true) → Blanks front →
      Spaced params list → Blanks back → Bracketed params ('(' :: (front ++ (list ++ back)) ++ [')'])

/-- The texts of the declarations of an entry. -/
inductive Derives : Entry → List Char → Prop
  | intro {name : List Char} {params list gap gap' gap''} : gap ≠ [] → Blanks gap →
      isIdent name = true → Blanks gap' → Bracketed params list → Blanks gap'' →
      Derives ⟨String.ofList name, params.map String.ofList⟩
        ("(defjs".toList ++ (gap ++ (name ++ (gap' ++ (list ++ (gap'' ++ [')']))))))

variable {cs rest text : List Char} {params : List (List Char)} {e : Entry}

theorem bracketed_iff : Bracketed params text ↔ (∀ p ∈ params, isIdent p = true) ∧
    ∃ inner, words inner = params ∧ text = '(' :: inner ++ [')'] := by
  constructor
  · rintro ⟨hparams, hfront, hlist, hback⟩
    exact ⟨hparams, _, words_eq_iff.mpr ⟨_, _, _, hfront, hlist, hback, rfl⟩, rfl⟩
  · rintro ⟨hparams, inner, hwords, rfl⟩
    obtain ⟨front, list, back, hfront, hlist, hback, rfl⟩ := words_eq_iff.mp hwords
    exact ⟨hparams, hfront, hlist, hback⟩

theorem Derives.wellFormed (h : Derives e text) : e.WellFormed := by
  obtain ⟨-, -, hname, -, hlist, -⟩ := h
  obtain ⟨hparams, -⟩ := bracketed_iff.mp hlist
  refine ⟨by rwa [String.toList_ofList], fun p hp => ?_⟩
  obtain ⟨w, hw, rfl⟩ := List.mem_map.mp hp
  rw [String.toList_ofList]
  exact hparams w hw

theorem Derives.exists_bracket (h : Derives e text) : ∃ rest, text = '(' :: rest := by
  cases h
  exact ⟨_, rfl⟩

/-! ## Reading -/

section
variable {p : Char → Bool} {run : List Char} {x : Char}

theorem expect_eq_some_iff : expect x cs = some rest ↔ cs = x :: rest := by
  cases cs with
  | nil => simp [expect]
  | cons c cs =>
    rw [expect, Option.ite_none_right_eq_some, Option.some.injEq, List.cons.injEq]

theorem run?_eq_some_iff : run? p cs = some (run, rest) ↔ cs = run ++ rest ∧ run ≠ [] ∧
    (∀ c ∈ run, p c = true) ∧ ∀ c ∈ rest.head?, p c = false := by
  constructor
  · intro h
    rw [run?, Option.ite_none_left_eq_some, Option.some.injEq, Prod.mk.injEq] at h
    obtain ⟨hne, rfl, rfl⟩ := h
    refine ⟨List.takeWhile_append_dropWhile.symm, by simpa using hne,
      fun c hc => List.mem_takeWhile_imp hc, fun c hc => ?_⟩
    have hnot := List.head?_dropWhile_not p cs
    rw [Option.mem_def.mp hc] at hnot
    exact hnot
  · rintro ⟨rfl, hne, hrun, hrest⟩
    rw [run?, takeWhile_append_eq hrun hrest, dropWhile_append_eq hrun hrest,
      if_neg (by simpa using hne)]

/-- A mark is looked for behind blanks. -/
theorem expect_trimStart_eq_some_iff (hx : isBlank x = false) :
    expect x (trimStart cs) = some rest ↔ ∃ gap, Blanks gap ∧ cs = gap ++ x :: rest := by
  rw [expect_eq_some_iff]
  constructor
  · intro h
    obtain ⟨gap, hgap, heq⟩ := exists_trimStart cs
    exact ⟨gap, hgap, heq.trans (by rw [h])⟩
  · rintro ⟨gap, hgap, rfl⟩
    refine trimStart_append hgap fun c hc => ?_
    cases hc
    exact hx

/-- A mark ends a run of characters that it is none of. -/
theorem expect_dropWhile_eq_some_iff (hx : p x = false) :
    cs.takeWhile p = run ∧ expect x (cs.dropWhile p) = some rest ↔
      (∀ c ∈ run, p c = true) ∧ cs = run ++ x :: rest := by
  rw [expect_eq_some_iff]
  constructor
  · rintro ⟨rfl, h⟩
    refine ⟨fun c hc => List.mem_takeWhile_imp hc, ?_⟩
    rw [← h, List.takeWhile_append_dropWhile]
  · rintro ⟨hrun, rfl⟩
    have hrest : ∀ c ∈ (x :: rest).head?, p c = false := by
      intro c hc
      cases hc
      exact hx
    exact ⟨takeWhile_append_eq hrun hrest, dropWhile_append_eq hrun hrest⟩

end

/-- A reading takes the text apart as the grammar puts it together. -/
theorem declarationAt?_eq_some_iff_exists : declarationAt? cs = some (e, rest) ↔
    ∃ gap name gap' inner gap'' : List Char,
      (gap ≠ [] ∧ Blanks gap) ∧ (name ≠ [] ∧ ∀ c ∈ name, isIdentChar c = true) ∧ Blanks gap' ∧
      (∀ c ∈ inner, (isIdentChar c || isBlank c) = true) ∧ Blanks gap'' ∧
      e = ⟨String.ofList name, (words inner).map String.ofList⟩ ∧
      cs = "(defjs".toList ++ (gap ++ (name ++ (gap' ++ '(' :: (inner ++ ')' ::
        (gap'' ++ ')' :: rest))))) := by
  have hopen : isBlank '(' = false := by decide
  have hclose : isBlank ')' = false := by decide
  have hmark : (isIdentChar ')' || isBlank ')') = false := by decide
  simp only [declarationAt?, Option.bind_eq_bind, Option.bind_eq_some_iff, Option.pure_def,
    Option.some.injEq, Prod.exists, Prod.mk.injEq, afterPrefix?_eq_some_iff, run?_eq_some_iff,
    expect_trimStart_eq_some_iff hopen, expect_trimStart_eq_some_iff hclose]
  constructor
  · rintro ⟨_, rfl, gap, _, ⟨rfl, hne, hgap, -⟩, name, _, ⟨rfl, hname, hchars, -⟩, list,
      ⟨gap', hgap', rfl⟩, _, hlist, _, ⟨gap'', hgap'', rfl⟩, rfl, rfl⟩
    obtain ⟨hinner, heq⟩ :=
      (expect_dropWhile_eq_some_iff (p := fun c => isIdentChar c || isBlank c) hmark).mp
        ⟨rfl, hlist⟩
    refine ⟨gap, name, gap', _, gap'', ⟨hne, hgap⟩, ⟨hname, hchars⟩, hgap', hinner, hgap'', rfl, ?_⟩
    rw [← heq]
  · rintro ⟨gap, name, gap', inner, gap'', ⟨hne, hgap⟩, hname, hgap', hinner, hgap'', rfl, rfl⟩
    have hword : IsWord name := isWord_of_isIdent (isIdent_iff.mpr hname)
    have hend : ∀ c ∈ (gap' ++ '(' :: (inner ++ ')' :: (gap'' ++ ')' :: rest))).head?,
        isIdentChar c = false := by
      cases gap' with
      | nil =>
        rintro c ⟨⟩
        decide
      | cons d gap' =>
        rintro c ⟨⟩
        exact isIdentChar_eq_false_of_isBlank (hgap' d List.mem_cons_self)
    obtain ⟨htake, hdrop⟩ :=
      (expect_dropWhile_eq_some_iff (p := fun c => isIdentChar c || isBlank c) hmark).mpr
        ⟨hinner, rfl⟩
    exact ⟨_, rfl, gap, _, ⟨rfl, hne, hgap, hword.isBlank_head⟩, name, _,
      ⟨rfl, hname.1, hname.2, hend⟩, _, ⟨gap', hgap', rfl⟩, _, hdrop, _, ⟨gap'', hgap'', rfl⟩,
      by rw [htake], rfl⟩

/-- What is read at the front of a text is what the grammar derives. -/
theorem declarationAt?_eq_some_iff :
    declarationAt? cs = some (e, rest) ↔ ∃ text, Derives e text ∧ cs = text ++ rest := by
  rw [declarationAt?_eq_some_iff_exists]
  constructor
  · rintro ⟨gap, name, gap', inner, gap'', ⟨hne, hgap⟩, hname, hgap', hinner, hgap'', rfl, rfl⟩
    have hlist : Bracketed (words inner) ('(' :: inner ++ [')']) :=
      bracketed_iff.mpr ⟨forall_isIdent_words_iff.mpr hinner, inner, rfl, rfl⟩
    refine ⟨_, .intro hne hgap (isIdent_iff.mpr hname) hgap' hlist hgap'', ?_⟩
    simp only [List.append_assoc, List.cons_append, List.nil_append]
  · rintro ⟨_, @⟨name, _, _, gap, gap', gap'', hne, hgap, hname, hgap', hlist, hgap''⟩, rfl⟩
    obtain ⟨hparams, inner, rfl, rfl⟩ := bracketed_iff.mp hlist
    refine ⟨gap, name, gap', inner, gap'', ⟨hne, hgap⟩, isIdent_iff.mp hname, hgap',
      forall_isIdent_words_iff.mp hparams, hgap'', rfl, ?_⟩
    simp only [List.append_assoc, List.cons_append, List.nil_append]

/-! ## Declarations -/

theorem declaration_toList (e : Entry) : e.declaration.toList =
    "(defjs".toList ++ ([' '] ++ (e.name.toList ++ ' ' :: '(' ::
      ([' '].intercalate (e.params.map String.toList) ++ [')', ')']))) := by
  simp only [Entry.declaration, String.toList_append, String.toList_intercalate, List.append_assoc]
  rfl

/-- The characters of a declaration. -/
theorem mem_declaration {e : Entry} (h : e.WellFormed) {c : Char} (hc : c ∈ e.declaration.toList) :
    isIdentChar c = true ∨ c = ' ' ∨ c = '(' ∨ c = ')' := by
  obtain ⟨hname, hparams⟩ := h
  simp only [isIdent, Bool.and_eq_true, List.all_eq_true] at hname hparams
  rw [declaration_toList] at hc
  simp only [List.mem_append, List.mem_cons, List.not_mem_nil, or_false] at hc
  rcases hc with hc | rfl | hc | rfl | rfl | hc | rfl | rfl
  · rcases List.mem_cons.mp (show c ∈ '(' :: "defjs".toList from hc) with rfl | hc
    · exact .inr (.inr (.inl rfl))
    have hall : "defjs".toList.all isIdentChar = true := by decide
    exact .inl (List.all_eq_true.mp hall c hc)
  · exact .inr (.inl rfl)
  · exact .inl (hname.2 c hc)
  · exact .inr (.inl rfl)
  · exact .inr (.inr (.inl rfl))
  · rcases mem_intercalate_blank hc with rfl | ⟨w, hw, hc⟩
    · exact .inr (.inl rfl)
    obtain ⟨q, hq, rfl⟩ := List.mem_map.mp hw
    exact .inl ((hparams q hq).2 c hc)
  · exact .inr (.inr (.inr rfl))
  · exact .inr (.inr (.inr rfl))

/-- The parameters of an entry in brackets, as its declaration has them. -/
theorem bracketed_params {e : Entry} (h : e.WellFormed) : Bracketed (e.params.map String.toList)
    ('(' :: [' '].intercalate (e.params.map String.toList) ++ [')']) := by
  have hidents : ∀ p ∈ e.params.map String.toList, isIdent p = true := by
    simpa using h.2
  refine bracketed_iff.mpr ⟨hidents, _, ?_, rfl⟩
  exact words_intercalate fun p hp => isWord_of_isIdent (hidents p hp)

theorem Entry.ofList_toList (e : Entry) :
    (⟨String.ofList e.name.toList, (e.params.map String.toList).map String.ofList⟩ : Entry) =
      e := by
  have hparams : (e.params.map String.toList).map String.ofList = e.params := by
    rw [List.map_map]
    exact List.map_id'' (fun _ => String.ofList_toList) _
  rw [String.ofList_toList, hparams]

theorem derives_declaration {e : Entry} (h : e.WellFormed) : Derives e e.declaration.toList := by
  have hnone : Blanks [] := nofun
  have hone : Blanks [' '] := by decide
  have hderives := Derives.intro (by simp) hone h.1 hone (bracketed_params h) hnone
  rw [e.ofList_toList] at hderives
  rw [declaration_toList]
  simpa only [List.append_assoc, List.cons_append, List.nil_append] using hderives

theorem declarationAt?_declaration {e : Entry} (h : e.WellFormed) (rest : List Char) :
    declarationAt? (e.declaration.toList ++ rest) = some (e, rest) :=
  declarationAt?_eq_some_iff.mpr ⟨_, derives_declaration h, rfl⟩

theorem declarationAt?_eq_none {c : Char} (hc : c ≠ '(') (cs : List Char) :
    declarationAt? (c :: cs) = none := by
  have hprefix : afterPrefix? "(defjs".toList (c :: cs) = none := if_neg (Ne.symm hc)
  rw [declarationAt?, hprefix]
  rfl

theorem findDeclaration?_append {e : Entry} (h : e.WellFormed) {front : List Char}
    (hfront : '(' ∉ front) (rest : List Char) :
    findDeclaration? (front ++ (e.declaration.toList ++ rest)) = some e := by
  induction front with
  | nil =>
    have hat := declarationAt?_declaration h rest
    obtain ⟨c, cs, hcs⟩ : ∃ c cs, e.declaration.toList ++ rest = c :: cs :=
      ⟨_, _, by rw [declaration_toList]; rfl⟩
    rw [hcs] at hat
    rw [List.nil_append, hcs, findDeclaration?, hat]
  | cons c front ih =>
    have hc : c ≠ '(' := fun hc => hfront (by simp [hc])
    rw [List.cons_append, findDeclaration?, declarationAt?_eq_none hc]
    exact ih fun hmem => hfront (List.mem_cons_of_mem c hmem)

end LispBridge.Library
