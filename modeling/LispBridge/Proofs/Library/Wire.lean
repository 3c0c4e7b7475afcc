import LispBridge.Proofs.Library.Block
import LispBridge.Proofs.Library.Occurrence

/-!
# Taking a library apart

`Successive` takes the declarations of a text off it from the left, each where it starts first; no
text has two such lists of entries (`Successive.unique`). A library that is written for the
interpreter has the entries that it was written from (`successive_renderWire`), whatever the script
held that they were read from: all of them are well-formed (`wellFormed_of_mem_fullLibrary`), and
the text consists of the characters of identifiers, brackets and single blanks (`mem_renderWire`).
-/

namespace LispBridge.Library

open Chars

variable {cs front text : List Char} {e : Entry} {es es' : List Entry} {c : Char}

/-! ## Entries that are read -/

theorem wellFormed_of_findDeclaration? (h : findDeclaration? cs = some e) : e.WellFormed := by
  obtain ⟨o, rfl, -⟩ := findDeclaration?_eq_some_iff.mp h
  exact o.derives.wellFormed

theorem wellFormed_of_mem_scan {b : Bool} {ls : List (List Char)} (h : e ∈ (scan b ls).2) :
    e.WellFormed := by
  induction ls generalizing b with
  | nil => cases h
  | cons l ls ih =>
    rw [scan] at h
    split at h
    · exact ih h
    split at h
    · exact ih h
    cases b with
    | false => exact ih h
    | true =>
      obtain h | h := List.mem_append.mp h
      · exact wellFormed_of_findDeclaration? (Option.mem_toList.mp h)
      · exact ih h

theorem wellFormed_of_mem_parseBlock {source : String} (h : e ∈ parseBlock source) :
    e.WellFormed := by
  rw [parseBlock_eq] at h
  split at h
  · cases h
  · exact wellFormed_of_mem_scan h

theorem wellFormed_of_mem_fullLibrary {source : String} (h : e ∈ fullLibrary source) :
    e.WellFormed := by
  have hpredefined : ∀ e ∈ predefined, e.WellFormed := by decide
  exact (List.mem_append.mp h).elim (hpredefined e) wellFormed_of_mem_parseBlock

/-! ## One declaration after another -/

/-- Declarations start with a bracket, so that none starts where there is none. -/
theorem Occurrence.leftmost_of_not_mem (o : Occurrence cs) (h : '(' ∉ o.front) : o.Leftmost := by
  intro o'
  by_contra hlt
  obtain ⟨text, htext⟩ := o'.derives.exists_bracket
  have hdrop : (o.front ++ (o.text ++ o.rest)).drop o'.front.length = '(' :: (text ++ o'.rest) := by
    rw [← o.eq, o'.drop_length_front, htext, List.cons_append]
  rw [List.drop_append_of_le_length (Nat.le_of_not_le hlt)] at hdrop
  cases hbehind : o.front.drop o'.front.length with
  | nil => exact hlt (List.drop_eq_nil_iff.mp hbehind)
  | cons c behind =>
    rw [hbehind] at hdrop
    obtain ⟨rfl, -⟩ := List.cons.inj hdrop
    exact h (List.mem_of_mem_drop (hbehind ▸ List.mem_cons_self))

theorem isEmpty_occurrence (h : '(' ∉ cs) : IsEmpty (Occurrence cs) := by
  refine ⟨fun o => h ?_⟩
  obtain ⟨text, htext⟩ := o.derives.exists_bracket
  rw [o.eq, htext]
  simp

/-- The entries of a text when its declarations are taken off it, each time the one that starts
first. -/
inductive Successive : List Char → List Entry → Prop
  | done {cs : List Char} : IsEmpty (Occurrence cs) → Successive cs []
  | next {cs : List Char} {es} (o : Occurrence cs) : o.Leftmost → Successive o.rest es →
      Successive cs (o.entry :: es)

theorem Successive.unique (h : Successive cs es) (h' : Successive cs es') : es = es' := by
  induction h generalizing es' with
  | done hempty =>
    cases h' with
    | done => rfl
    | next o' => exact hempty.elim o'
  | next o ho _ ih =>
    cases h' with
    | done hempty => exact hempty.elim o
    | next o' ho' hrest =>
      obtain rfl := ho.eq ho'
      rw [ih hrest]

/-! ## Written libraries -/

theorem renderWire_toList (es : List Entry) :
    (renderWire es).toList = [' '].intercalate (es.map (·.declaration.toList)) := by
  rw [renderWire, String.toList_intercalate, List.map_map]
  rfl

theorem mem_renderWire (hes : ∀ e ∈ es, e.WellFormed) (hc : c ∈ (renderWire es).toList) :
    isIdentChar c = true ∨ c = '(' ∨ c = ')' ∨ c = ' ' := by
  rw [renderWire_toList] at hc
  obtain rfl | ⟨w, hw, hc⟩ := mem_intercalate_blank hc
  · exact .inr (.inr (.inr rfl))
  obtain ⟨e, he, rfl⟩ := List.mem_map.mp hw
  obtain hc | rfl | rfl | rfl := mem_declaration (hes e he) hc
  · exact .inl hc
  · exact .inr (.inr (.inr rfl))
  · exact .inr (.inl rfl)
  · exact .inr (.inr (.inl rfl))

/-- The entries are found also behind text without brackets, as what separates them is. -/
theorem successive_append_renderWire (hfront : '(' ∉ front) (hes : ∀ e ∈ es, e.WellFormed) :
    Successive (front ++ (renderWire es).toList) es := by
  induction es generalizing front with
  | nil =>
    refine .done (isEmpty_occurrence ?_)
    rwa [renderWire_toList, List.map_nil, List.intercalate_nil, List.append_nil]
  | cons e es ih =>
    obtain ⟨he, hes⟩ := List.forall_mem_cons.mp hes
    obtain ⟨gap, hgap, hsplit⟩ : ∃ gap, '(' ∉ gap ∧ (renderWire (e :: es)).toList =
        e.declaration.toList ++ (gap ++ (renderWire es).toList) := by
      simp only [renderWire_toList, List.map_cons]
      cases es with
      | nil => exact ⟨[], List.not_mem_nil, by simp⟩
      | cons e' es =>
        rw [List.map_cons, List.intercalate_cons_cons, List.append_assoc]
        exact ⟨[' '], by decide, rfl⟩
    let o : Occurrence (front ++ (renderWire (e :: es)).toList) :=
      ⟨front, _, _, e, derives_declaration he, by rw [hsplit]⟩
    exact .next o (o.leftmost_of_not_mem hfront) (ih hgap hes)

theorem successive_renderWire (hes : ∀ e ∈ es, e.WellFormed) :
    Successive (renderWire es).toList es :=
  successive_append_renderWire (List.not_mem_nil (a := '(')) hes

theorem renderWire_inj (hes : ∀ e ∈ es, e.WellFormed) (hes' : ∀ e ∈ es', e.WellFormed)
    (h : renderWire es = renderWire es') : es = es' := by
  have hsuccessive := successive_renderWire hes'
  rw [← h] at hsuccessive
  exact (successive_renderWire hes).unique hsuccessive

end LispBridge.Library
