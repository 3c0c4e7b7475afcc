import LispBridge.Proofs.Library.Declaration
import Mathlib.Computability.Language

/-!
# Where declarations stand

An `Occurrence` is a declaration somewhere in a text. At each place at most one starts
(`Occurrence.eq_of_length_front_eq`), and a search yields the entry of the one that starts first
(`findDeclaration?_leftmost`).

The texts of declarations are also those that a regular expression matches, whose two groups are
the name and the parameters with the blanks between and after them (`derives_iff_matches`). Its
repetitions can cut the same parameters up in many ways, which makes no difference to the groups.
-/

namespace LispBridge.Library

open Chars Computability

variable {cs text rest : List Char} {e : Entry}

/-! ## Occurrences -/

/-- A declaration in a text, with what stands before and after it. -/
@[ext]
structure Occurrence (cs : List Char) where
  front : List Char
  text : List Char
  rest : List Char
  entry : Entry
  derives : Derives entry text
  eq : cs = front ++ (text ++ rest)

namespace Occurrence

theorem declarationAt?_eq (o : Occurrence cs) :
    declarationAt? (o.text ++ o.rest) = some (o.entry, o.rest) :=
  declarationAt?_eq_some_iff.mpr ⟨o.text, o.derives, rfl⟩

theorem drop_length_front (o : Occurrence cs) : cs.drop o.front.length = o.text ++ o.rest :=
  (congrArg (List.drop o.front.length) o.eq).trans List.drop_left

/-- What starts at a place is determined by it. -/
theorem eq_of_length_front_eq {o o' : Occurrence cs} (h : o.front.length = o'.front.length) :
    o = o' := by
  obtain ⟨hfront, hsuffix⟩ := List.append_inj (o.eq.symm.trans o'.eq) h
  have hread := o.declarationAt?_eq
  rw [hsuffix, o'.declarationAt?_eq, Option.some.injEq, Prod.mk.injEq] at hread
  obtain ⟨hentry, hrest⟩ := hread
  rw [hrest, List.append_cancel_right_eq] at hsuffix
  exact Occurrence.ext hfront hsuffix hrest.symm hentry.symm

/-- An occurrence behind a character. -/
def cons (c : Char) (o : Occurrence cs) : Occurrence (c :: cs) :=
  ⟨c :: o.front, o.text, o.rest, o.entry, o.derives, congrArg (c :: ·) o.eq⟩

/-- An occurrence that does not start with the text is one in the text without its first
character. -/
theorem exists_cons {c : Char} (o : Occurrence (c :: cs)) (h : o.front ≠ []) :
    ∃ o' : Occurrence cs, o = o'.cons c := by
  obtain ⟨front, text, rest, entry, hderives, heq⟩ := o
  obtain ⟨d, front, rfl⟩ := List.exists_cons_of_ne_nil h
  obtain ⟨rfl, hcs⟩ := List.cons.inj heq
  exact ⟨⟨front, text, rest, entry, hderives, hcs⟩, rfl⟩

/-- No occurrence starts before this one. -/
def Leftmost (o : Occurrence cs) : Prop := ∀ o' : Occurrence cs, o.front.length ≤ o'.front.length

theorem Leftmost.eq {o o' : Occurrence cs} (h : o.Leftmost) (h' : o'.Leftmost) : o = o' :=
  eq_of_length_front_eq (Nat.le_antisymm (h o') (h' o))

theorem exists_leftmost (o : Occurrence cs) : ∃ o : Occurrence cs, o.Leftmost := by
  obtain ⟨n, ⟨first, rfl⟩, hmin⟩ :=
    WellFounded.has_min Nat.lt_wfRel.wf (Set.range fun o : Occurrence cs => o.front.length)
      ⟨_, o, rfl⟩
  exact ⟨first, fun o' => Nat.le_of_not_lt (hmin _ ⟨o', rfl⟩)⟩

end Occurrence

theorem findDeclaration?_eq_some_iff :
    findDeclaration? cs = some e ↔ ∃ o : Occurrence cs, o.entry = e ∧ o.Leftmost := by
  induction cs with
  | nil =>
    refine iff_of_false nofun ?_
    rintro ⟨⟨front, text, rest, entry, hderives, heq⟩, -⟩
    obtain ⟨-, htext⟩ := List.append_eq_nil_iff.mp heq.symm
    cases hderives
    simp at htext
  | cons c cs ih =>
    rw [findDeclaration?]
    cases hread : declarationAt? (c :: cs) with
    | some r =>
      obtain ⟨e', rest⟩ := r
      obtain ⟨text, hderives, heq⟩ := declarationAt?_eq_some_iff.mp hread
      let first : Occurrence (c :: cs) := ⟨[], text, rest, e', hderives, heq⟩
      have hfirst : first.Leftmost := fun o' => Nat.zero_le _
      constructor
      · rintro ⟨⟩
        exact ⟨first, rfl, hfirst⟩
      · rintro ⟨o, rfl, ho⟩
        rw [ho.eq hfirst]
    | none =>
      have hbehind : ∀ o : Occurrence (c :: cs), ∃ o' : Occurrence cs, o = o'.cons c := by
        refine fun o => o.exists_cons fun hfront => ?_
        have heq := o.eq
        rw [hfront, List.nil_append] at heq
        rw [heq, o.declarationAt?_eq] at hread
        cases hread
      constructor
      · intro h
        obtain ⟨o, rfl, ho⟩ := ih.mp h
        refine ⟨o.cons c, rfl, fun o' => ?_⟩
        obtain ⟨o', rfl⟩ := hbehind o'
        exact Nat.succ_le_succ (ho o')
      · rintro ⟨o, rfl, ho⟩
        obtain ⟨o, rfl⟩ := hbehind o
        exact ih.mpr ⟨o, rfl, fun o' => Nat.le_of_succ_le_succ (ho (o'.cons c))⟩

/-! ## The pattern -/

namespace Pattern

/-- The texts of one character that satisfies `p`. -/
def one (p : Char → Bool) : Language Char := {w | ∃ c, p c = true ∧ w = [c]}

/-- The texts that match `[A-Za-z0-9_]+`. -/
def word : Language Char := one isIdentChar * (one isIdentChar)∗

/-- The texts that match `\s*`. -/
def blanks : Language Char := (one isBlank)∗

/-- The texts that match `(?:[A-Za-z0-9_]+\s*)*`. -/
def params : Language Char := (word * blanks)∗

/-- The texts that match `\(defjs\s+([A-Za-z0-9_]+)\s*\(\s*((?:[A-Za-z0-9_]+\s*)*)\)\s*\)`, with
those of the two groups. -/
def Matches (name list text : List Char) : Prop :=
  ∃ before ∈ {"(defjs".toList} * (one isBlank * blanks), ∃ between ∈ blanks * {['(']} * blanks,
  ∃ after ∈ {[')']} * blanks * {[')']}, name ∈ word ∧ list ∈ params ∧
    text = before ++ (name ++ (between ++ (list ++ after)))

variable {p : Char → Bool} {w : List Char}

theorem mem_kstar_one : w ∈ (one p)∗ ↔ ∀ c ∈ w, p c = true := by
  rw [Language.mem_kstar]
  constructor
  · rintro ⟨ws, rfl, hws⟩ c hc
    obtain ⟨w, hw, hc⟩ := List.mem_flatten.mp hc
    obtain ⟨d, hd, rfl⟩ := hws w hw
    exact List.mem_singleton.mp hc ▸ hd
  · intro h
    refine ⟨w.map ([·]), by rw [← List.flatMap_def, List.flatMap_singleton'], fun v hv => ?_⟩
    obtain ⟨c, hc, rfl⟩ := List.mem_map.mp hv
    exact ⟨c, h c hc, rfl⟩

theorem mem_one_mul_kstar : w ∈ one p * (one p)∗ ↔ w ≠ [] ∧ ∀ c ∈ w, p c = true := by
  rw [Language.mem_mul]
  constructor
  · rintro ⟨_, ⟨c, hc, rfl⟩, rest, hrest, rfl⟩
    exact ⟨by simp, List.forall_mem_cons.mpr ⟨hc, mem_kstar_one.mp hrest⟩⟩
  · rintro ⟨hne, h⟩
    obtain ⟨c, w, rfl⟩ := List.exists_cons_of_ne_nil hne
    obtain ⟨hc, h⟩ := List.forall_mem_cons.mp h
    exact ⟨[c], ⟨c, hc, rfl⟩, w, mem_kstar_one.mpr h, rfl⟩

theorem mem_word : w ∈ word ↔ isIdent w = true := by
  rw [word, mem_one_mul_kstar, isIdent_iff]

theorem mem_blanks : w ∈ blanks ↔ Blanks w := mem_kstar_one

theorem append_mem_params {w gap rest : List Char} (hw : isIdent w = true) (hgap : Blanks gap)
    (hrest : rest ∈ params) : w ++ gap ++ rest ∈ params := by
  obtain ⟨ws, rfl, hws⟩ := Language.mem_kstar.mp hrest
  refine Language.mem_kstar.mpr ⟨(w ++ gap) :: ws, rfl, List.forall_mem_cons.mpr ⟨?_, hws⟩⟩
  exact Language.append_mem_mul (mem_word.mpr hw) (mem_blanks.mpr hgap)

theorem mem_params_of_chars {w : List Char} (hchars : ∀ c ∈ w, (isIdentChar c || isBlank c) = true)
    (hhead : ∀ c ∈ w.head?, isBlank c = false) : w ∈ params := by
  match w with
  | [] => exact Language.nil_mem_kstar _
  | c :: w =>
    obtain ⟨v, rest, hcut, hv, -⟩ := exists_word_append (hhead c rfl) w
    obtain ⟨gap, hgap, hrest⟩ := exists_trimStart rest
    rw [hcut, hrest] at hchars ⊢
    have hident : isIdent v = true := by
      refine isIdent_iff.mpr ⟨hv.1, fun d hd => ?_⟩
      have hchar := hchars d (List.mem_append_left _ hd)
      rwa [hv.2 d hd, Bool.or_false] at hchar
    have hshorter : (trimStart rest).length < (c :: w).length := by
      have hpos := List.length_pos_iff.mpr hv.1
      have hle := congrArg List.length hrest
      rw [List.length_append] at hle
      rw [hcut, List.length_append]
      omega
    have hmem := mem_params_of_chars (fun d hd => hchars d (by simp [hd]))
      (isBlank_head_trimStart rest)
    rw [← List.append_assoc]
    exact append_mem_params hident hgap hmem
  termination_by w.length
  decreasing_by assumption

/-- However it is cut up, a text matches if it consists of the characters of identifiers and blanks
and does not start with a blank. -/
theorem mem_params : w ∈ params ↔
    (∀ c ∈ w, (isIdentChar c || isBlank c) = true) ∧ ∀ c ∈ w.head?, isBlank c = false := by
  constructor
  · intro h
    obtain ⟨ws, rfl, hws⟩ := Language.mem_kstar.mp h
    constructor
    · intro c hc
      obtain ⟨v, hv, hc⟩ := List.mem_flatten.mp hc
      obtain ⟨name, hname, gap, hgap, rfl⟩ := Language.mem_mul.mp (hws v hv)
      obtain hc | hc := List.mem_append.mp hc
      · rw [(isIdent_iff.mp (mem_word.mp hname)).2 c hc, Bool.true_or]
      · rw [mem_blanks.mp hgap c hc, Bool.or_true]
    · cases ws with
      | nil => nofun
      | cons v ws =>
        obtain ⟨name, hname, gap, hgap, rfl⟩ := Language.mem_mul.mp (hws v List.mem_cons_self)
        rw [List.flatten_cons, List.append_assoc]
        exact (isWord_of_isIdent (mem_word.mp hname)).isBlank_head
  · exact fun ⟨hchars, hhead⟩ => mem_params_of_chars hchars hhead

end Pattern

open Pattern in
/-- The texts of an entry's declarations match the pattern; the first group is its name, and its
parameters are the words of the second. -/
theorem derives_iff_matches : Derives e text ↔ ∃ name list, Matches name list text ∧
    e = ⟨String.ofList name, (words list).map String.ofList⟩ := by
  constructor
  · rintro ⟨hne, hgap, hname, hgap', hlist, hgap''⟩
    obtain ⟨hparams, inner, rfl, rfl⟩ := bracketed_iff.mp hlist
    -- the second group starts at the first parameter
    obtain ⟨front, hfront, hinner⟩ := exists_trimStart inner
    have hhead := isBlank_head_trimStart inner
    generalize trimStart inner = list at hinner hhead
    subst hinner
    rw [words_blanks_append hfront] at hparams ⊢
    refine ⟨_, list, ⟨_, ⟨_, rfl, _, mem_one_mul_kstar.mpr ⟨hne, hgap⟩, rfl⟩,
      _, ⟨_, ⟨_, mem_blanks.mpr hgap', _, rfl, rfl⟩, _, mem_blanks.mpr hfront, rfl⟩,
      _, ⟨_, ⟨_, rfl, _, mem_blanks.mpr hgap'', rfl⟩, _, rfl, rfl⟩, mem_word.mpr hname,
      mem_params.mpr ⟨forall_isIdent_words_iff.mp hparams, hhead⟩, ?_⟩, rfl⟩
    simp only [List.append_assoc, List.cons_append, List.nil_append]
  · rintro ⟨name, list, ⟨_, ⟨_, rfl, gap, hgap, rfl⟩, _, ⟨_, ⟨gap', hgap', _, rfl, rfl⟩, front,
      hfront, rfl⟩, _, ⟨_, ⟨_, rfl, gap'', hgap'', rfl⟩, _, rfl, rfl⟩, hname, hlist, rfl⟩, rfl⟩
    obtain ⟨hne, hgap⟩ := mem_one_mul_kstar.mp hgap
    have hparams : Bracketed (words list) ('(' :: (front ++ list) ++ [')']) := by
      refine bracketed_iff.mpr ⟨forall_isIdent_words_iff.mpr (mem_params.mp hlist).1, _, ?_, rfl⟩
      exact words_blanks_append (mem_blanks.mp hfront) list
    have hderives := Derives.intro hne hgap (mem_word.mp hname) (mem_blanks.mp hgap') hparams
      (mem_blanks.mp hgap'')
    simpa only [List.append_assoc, List.cons_append, List.nil_append] using hderives

/-- A line declares something just if it holds a declaration; that is then the one that starts
first. Where it starts determines where it ends and which entry it declares. The declarations of an
entry are the texts that the pattern matches. -/
theorem findDeclaration?_leftmost (line : List Char) :
    ((findDeclaration? line).isSome ↔ ∃ e text, Derives e text ∧ text <:+: line) ∧
    (∀ e, findDeclaration? line = some e ↔ ∃ o : Occurrence line, o.entry = e ∧ o.Leftmost) ∧
    (∀ o o' : Occurrence line, o.front.length = o'.front.length → o = o') ∧
    ∀ e text, Derives e text ↔ ∃ name list, Pattern.Matches name list text ∧
      e = ⟨String.ofList name, (words list).map String.ofList⟩ := by
  refine ⟨?_, fun e => findDeclaration?_eq_some_iff, fun o o' =>
    Occurrence.eq_of_length_front_eq, fun e text => derives_iff_matches⟩
  rw [Option.isSome_iff_exists]
  constructor
  · rintro ⟨e, he⟩
    obtain ⟨o, -, -⟩ := findDeclaration?_eq_some_iff.mp he
    exact ⟨o.entry, o.text, o.derives, o.front, o.rest, by rw [List.append_assoc, ← o.eq]⟩
  · rintro ⟨e, text, hderives, front, rest, heq⟩
    let occurrence : Occurrence line :=
      ⟨front, text, rest, e, hderives, by rw [← heq, List.append_assoc]⟩
    obtain ⟨o, ho⟩ := occurrence.exists_leftmost
    exact ⟨o.entry, findDeclaration?_eq_some_iff.mpr ⟨o, rfl, ho⟩⟩

/-- A keyword in front of another, parameters that are no identifiers, blanks of several kinds, and
a declaration that comes too late. -/
theorem findDeclaration?_leftmost_third :
    let line := "(defjs (defjs f(a-b)) (defjs\u00a0g\t( a_1  2 )\u2003) (defjs h ())".toList
    findDeclaration? line = some ⟨"g", ["a_1", "2"]⟩ ∧
      ∃ o : Occurrence line, o.entry = ⟨"g", ["a_1", "2"]⟩ ∧ o.Leftmost ∧ o.front.length = 22 ∧
        o.rest = " (defjs h ())".toList := by
  intro line
  have hfind : findDeclaration? line = some ⟨"g", ["a_1", "2"]⟩ := by decide +kernel
  have hbefore : ∀ n < 22, declarationAt? (line.drop n) = none := by decide +kernel
  have hthird : declarationAt? (line.drop 22) =
      some (⟨"g", ["a_1", "2"]⟩, " (defjs h ())".toList) := by decide +kernel
  obtain ⟨text, hderives, heq⟩ := declarationAt?_eq_some_iff.mp hthird
  let third : Occurrence line :=
    ⟨line.take 22, text, _, _, hderives, by rw [← heq, List.take_append_drop]⟩
  have hlength : (line.take 22).length = 22 := by decide +kernel
  obtain ⟨-, hleftmost, hunique, -⟩ := findDeclaration?_leftmost line
  obtain ⟨o, ho, hfirst⟩ := (hleftmost _).mp hfind
  have hle : 22 ≤ o.front.length := by
    by_contra hlt
    have hread := hbefore o.front.length (Nat.lt_of_not_le hlt)
    rw [o.drop_length_front, o.declarationAt?_eq] at hread
    cases hread
  have heq : o = third := hunique o third (Nat.le_antisymm (hfirst third) (hlength ▸ hle))
  exact ⟨hfind, o, ho, hfirst, heq ▸ hlength, heq ▸ rfl⟩

end LispBridge.Library
