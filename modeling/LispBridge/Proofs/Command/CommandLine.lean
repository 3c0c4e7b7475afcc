import LispBridge.Command.Report
import LispBridge.Proofs.Except
import LispBridge.Proofs.Library.Forms
import Mathlib.Data.List.Forall2

/-!
# Reading a command line

A word that does not start with a dash is no option (`Word.ofText_eq_plain`). Whatever the words
are, the entries that a task is given have been read from some of them, so that they are well-formed
(`wellFormed_of_ofWords`): no step of the reader adds others (`Reader.Sound`).
-/

namespace LispBridge.Command

open Library (Entry)

/-! ## Words and outputs -/

theorem Word.ofText_eq_plain {s : String} (h : s.toList.head? ≠ some '-') :
    Word.ofText s = .plain := by
  unfold Word.ofText
  split <;> simp_all

theorem Report.stdout_append_feed (text : String) :
    (Report.output (text ++ "\n")).stdout = text ++ "\n" := by
  have hend : (text ++ "\n").endsWith "\n" = true := by
    rw [String.endsWith_eq_endsWith_toSlice, String.Slice.endsWith_string_iff,
      String.copy_toSlice, String.toList_append]
    exact List.suffix_append text.toList _
  rw [Report.stdout, hend, Bool.or_true, if_pos rfl]

/-! ## Entries that are looked at -/

theorem readDecls_eq_ok_iff {values : List String} {es : List Entry} :
    readDecls values = .ok es ↔ List.Forall₂ (Entry.ofText · = .ok ·) values es := by
  induction values generalizing es with
  | nil => simp [readDecls, eq_comm]
  | cons s values ih =>
    rw [readDecls, List.forall₂_cons_left_iff]
    constructor
    · intro h
      split at h
      · cases h
      · next e he =>
        obtain ⟨es, hes, rfl⟩ := Except.exists_of_map_eq_ok h
        exact ⟨e, es, he, ih.mp hes, rfl⟩
    · rintro ⟨e, es, he, hes, rfl⟩
      rw [he, ih.mpr hes]
      rfl

theorem wellFormed_of_forall₂ {values : List String} {es : List Entry}
    (h : List.Forall₂ (Entry.ofText · = .ok ·) values es) : ∀ e ∈ es, e.WellFormed := by
  induction h with
  | nil => nofun
  | cons he _ ih => exact List.forall_mem_cons.mpr ⟨Entry.wellFormed_of_ofText he, ih⟩

theorem Given.wellFormed_look {g g' : Given} {p : Pending} (h : ∀ e ∈ g.decls, e.WellFormed)
    (hlook : g.look p = .ok g') : ∀ e ∈ g'.decls, e.WellFormed := by
  unfold look at hlook
  split at hlook
  · cases hlook
  · split at hlook
    · cases hlook
    · obtain ⟨n, -, rfl⟩ := Except.exists_of_map_eq_ok hlook
      exact h
  · split at hlook <;> cases hlook
    exact h
  · obtain ⟨es, hes, rfl⟩ := Except.exists_of_map_eq_ok hlook
    exact List.forall_mem_append.mpr ⟨h, wellFormed_of_forall₂ (readDecls_eq_ok_iff.mp hes)⟩

namespace Reader

/-- All entries that have been looked at are well-formed. -/
def Sound (r : Reader) : Prop := ∀ e ∈ r.given.decls, e.WellFormed

namespace Sound

variable {r r' : Reader}

theorem settle (h : r.Sound) (hr : r.settle = .ok r') : r'.Sound := by
  unfold Reader.settle at hr
  split at hr
  · cases hr
    exact h
  · obtain ⟨g, hg, rfl⟩ := Except.exists_of_map_eq_ok hr
    exact Given.wellFormed_look h hg

theorem flag {o : Opt} (h : r.Sound) (hr : r.flag o = .ok r') : r'.Sound := by
  obtain ⟨r₁, hr₁, hr⟩ := Except.exists_of_bind_eq_ok hr
  have h₁ := h.settle hr₁
  split at hr
  · cases hr
  · cases hr
  · split at hr <;> cases hr
    exact h₁

theorem letters {cs : List Char} (h : r.Sound) (hr : Reader.letters cs r = .ok r') : r'.Sound := by
  induction cs generalizing r with
  | nil =>
    cases hr
    exact h
  | cons c cs ih =>
    rw [Reader.letters] at hr
    split at hr
    · cases hr
    · obtain ⟨r₁, hr₁, hr⟩ := Except.exists_of_bind_eq_ok hr
      exact ih (h.flag hr₁) hr

theorem long {name : List Char} {value : Option (List Char)} (h : r.Sound)
    (hr : r.long name value = .ok r') : r'.Sound := by
  unfold Reader.long at hr
  split at hr
  · cases hr
  · split at hr
    · obtain ⟨r₁, hr₁, rfl⟩ := Except.exists_of_map_eq_ok hr
      have h₁ := h.settle hr₁
      exact h₁
    · exact h.flag hr
  · next v _ =>
    split at hr
    · obtain ⟨r₁, hr₁, hr⟩ := Except.exists_of_bind_eq_ok hr
      have h₁ := h.settle hr₁
      have h₂ : Reader.Sound { r₁ with pending := some (.option (some (String.ofList v))) } := h₁
      exact h₂.settle hr
    · cases hr

theorem operand {s : String} (h : r.Sound) (hr : r.operand s = .ok r') : r'.Sound := by
  unfold Reader.operand at hr
  split at hr
  · cases hr
  next o rest _ =>
  simp only at hr
  generalize (if o.repeats = true then o :: rest else rest) = left at hr
  split at hr
  · split at hr
    · cases hr
      exact h
    · obtain ⟨r₁, hr₁, rfl⟩ := Except.exists_of_map_eq_ok hr
      have h₁ := h.settle hr₁
      exact h₁
  · obtain ⟨r₁, hr₁, rfl⟩ := Except.exists_of_map_eq_ok hr
    have h₁ := h.settle hr₁
    exact h₁

theorem plain {s : String} (h : r.Sound) (hr : r.plain s = .ok r') : r'.Sound := by
  unfold Reader.plain at hr
  split at hr
  · cases hr
    exact h
  · exact h.operand hr

theorem words {ended : Bool} {ws : List String} (h : r.Sound)
    (hr : Reader.words ended ws r = .ok r') : r'.Sound := by
  induction ws generalizing ended r with
  | nil =>
    rw [Reader.words] at hr
    exact h.settle hr
  | cons s ws ih =>
    cases ended with
    | true =>
      obtain ⟨r₁, hr₁, hr⟩ := Except.exists_of_bind_eq_ok hr
      exact ih (h.operand hr₁) hr
    | false =>
      rw [Reader.words] at hr
      split at hr
      · exact ih h hr
      · obtain ⟨r₁, hr₁, hr⟩ := Except.exists_of_bind_eq_ok hr
        exact ih (h.long hr₁) hr
      · obtain ⟨r₁, hr₁, hr⟩ := Except.exists_of_bind_eq_ok hr
        exact ih (h.letters hr₁) hr
      · obtain ⟨r₁, hr₁, hr⟩ := Except.exists_of_bind_eq_ok hr
        exact ih (h.plain hr₁) hr

end Sound

end Reader

/-! ## The entries of a task -/

/-- The entries that a task is given. -/
def Task.decls : Task → List Entry
  | .declare decls | .embed _ decls => decls
  | _ => []

variable {words : List String} {i : Invocation}

theorem wellFormed_of_invoke {verbose : Bool} {c : Subcommand}
    (h : invoke verbose c words = .ok i) : ∀ e ∈ i.task.decls, e.WellFormed := by
  obtain ⟨r, hr, h⟩ := Except.exists_of_bind_eq_ok h
  obtain ⟨task, htask, h⟩ := Except.exists_of_bind_eq_ok h
  cases h
  have hfresh : Reader.Sound { options := c.options, operands := c.operands } := nofun
  have hsound := hfresh.words hr
  unfold Subcommand.task at htask
  split at htask
  · cases htask
    nofun
  · cases htask
    nofun
  · cases htask
    nofun
  · split at htask <;> cases htask
    exact hsound
  · split at htask <;> cases htask
    exact hsound
  · cases htask
    nofun

theorem exists_invoke_of_subcommandOf {ended : Bool} {name : String} {r : Reader}
    (h : subcommandOf ended name words r = .ok i) :
    ∃ verbose c, invoke verbose c words = .ok i := by
  unfold subcommandOf at h
  split at h
  · split at h
    · cases h
    · exact ⟨_, _, h⟩
  · split at h <;> cases h

theorem exists_invoke_of_readGlobal {ended : Bool} {r : Reader}
    (h : readGlobal ended words r = .ok i) :
    ∃ verbose c rest, invoke verbose c rest = .ok i := by
  induction words generalizing ended r with
  | nil => cases h
  | cons s words ih =>
    cases ended with
    | true =>
      obtain ⟨verbose, c, h⟩ := exists_invoke_of_subcommandOf h
      exact ⟨verbose, c, words, h⟩
    | false =>
      rw [readGlobal] at h
      split at h
      · exact ih h
      · obtain ⟨r₁, -, h⟩ := Except.exists_of_bind_eq_ok h
        exact ih h
      · obtain ⟨r₁, -, h⟩ := Except.exists_of_bind_eq_ok h
        exact ih h
      · obtain ⟨verbose, c, h⟩ := exists_invoke_of_subcommandOf h
        exact ⟨verbose, c, words, h⟩

/-- A command line names well-formed entries, or it is refused. -/
theorem wellFormed_of_ofWords (h : Invocation.ofWords words = .ok i) :
    ∀ e ∈ i.task.decls, e.WellFormed := by
  obtain ⟨verbose, c, rest, h⟩ := exists_invoke_of_readGlobal h
  exact wellFormed_of_invoke h

end LispBridge.Command
