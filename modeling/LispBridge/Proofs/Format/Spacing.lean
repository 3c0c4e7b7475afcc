import LispBridge.Proofs.Format.Squeeze

/-!
# Squeezing a script that was laid out

A layout tells a squeeze one thing only: that a list starts a new line, so that a gap stands before
its bracket. `Squeeze.spacedRun` is the squeeze that takes a gap to stand before every opening
bracket of code. A laid out script (`Squeeze.Follows.run_layout`) and a script with a space before
each of these brackets (`Squeeze.run_spread`) are both squeezed that way, and so is the script
itself where each bracket is set apart already (`Squeeze.run_of_apart`). `minify_prettyWith` puts
them together.
-/

namespace LispBridge.Format

open Chars

/-! ## Opening brackets of code -/

/-- A character of a script: the mode it is read in, and the character before it with its mode. -/
structure Place where
  mode : Mode
  before : Option (Mode × Char)
  char : Char
  deriving DecidableEq, Repr

/-- The characters of a text with their modes, from a mode on. -/
def placesFrom : Mode → Option (Mode × Char) → List Char → List Place
  | _, _, [] => []
  | m, before, c :: cs => ⟨m, before, c⟩ :: placesFrom (m.next c) (some (m, c)) cs

def places (code : String) : List Place := placesFrom .code none code.toList

namespace Place

/-- An opening bracket outside of strings, comments and escapes. -/
def opensList (x : Place) : Bool := x.mode = .code && x.char = '('

/-- Whether a place starts the text, or follows a blank of code, the line break that ends a comment,
or what looks like an opening bracket. -/
def apart (x : Place) : Bool :=
  match x.before with
  | none => true
  | some (m, b) => isOpening b || (m = .code && isBlank b) || (m = .comment && isBreak b)

end Place

/-- A text with a space before those opening brackets of code that `due` asks for. -/
def spread (due : Place → Bool) (xs : List Place) : List Char :=
  xs.flatMap fun x => if x.opensList && due x then [' ', x.char] else [x.char]

/-- A script with a space before each opening bracket of code. -/
def spaced (code : String) : String :=
  String.ofList (spread (fun _ => true) (places code))

/-- A script with a space before each opening bracket of code that is not set apart. -/
def unglued (code : String) : String :=
  String.ofList (spread (!·.apart) (places code))

/-- All opening brackets of code are set apart. -/
def Loose (code : String) : Prop := ∀ x ∈ places code, x.opensList = true → x.apart = true

instance : DecidablePred Loose := fun code =>
  inferInstanceAs (Decidable (∀ x ∈ places code, x.opensList = true → x.apart = true))

section
variable {due : Place → Bool} {x : Place} {xs : List Place} {m : Mode} {c : Char}

theorem Place.opensList_eq_true_iff : x.opensList = true ↔ x.mode = .code ∧ x.char = '(' := by
  simp [opensList]

theorem spread_cons_of_opensList (h : x.opensList = true) :
    spread due (x :: xs) = (if due x then [' ', x.char] else [x.char]) ++ spread due xs := by
  simp [spread, h]

theorem spread_cons_of_not_opensList (h : x.opensList = false) :
    spread due (x :: xs) = x.char :: spread due xs := by
  simp [spread, h]

theorem spread_cons_of_apart (h : x.apart = true) :
    spread (!·.apart) (x :: xs) = x.char :: spread (!·.apart) xs := by
  simp [spread, h]

end

/-! ## A gap before each bracket -/

namespace Squeeze

variable {k : Squeeze} {m : Mode} {l : Option Char} {g : Bool} {c : Char} {cs : List Char}

/-- The state before a character, where a gap is taken to stand before an opening bracket of
code. -/
def widen (k : Squeeze) (c : Char) : Squeeze :=
  if k.mode = .code ∧ c = '(' then { k with gap := true } else k

/-- Squeezes a text as if a gap stood before each opening bracket of code. -/
def spacedRun : Squeeze → List Char → List Char
  | _, [] => []
  | k, c :: cs => (k.widen c).emit c ++ spacedRun ((k.widen c).next c) cs

theorem widen_of_not (h : ¬(k.mode = .code ∧ c = '(')) : k.widen c = k := if_neg h

theorem widen_of_gap (h : k.gap = true) : k.widen c = k := by
  rw [widen, ← h]
  split <;> rfl

theorem widen_open : widen ⟨.code, l, g⟩ '(' = ⟨.code, l, true⟩ := if_pos ⟨rfl, rfl⟩

theorem spacedRun_of_not (h : ¬(k.mode = .code ∧ c = '(')) :
    spacedRun k (c :: cs) = k.emit c ++ spacedRun (k.next c) cs := by
  rw [spacedRun, widen_of_not h]

theorem spacedRun_open : spacedRun ⟨.code, l, g⟩ ('(' :: cs) =
    lead ⟨.code, l, true⟩ '(' ++ '(' :: spacedRun ⟨.code, some '(', false⟩ cs := by
  have hskip : skips ⟨.code, l, true⟩ '(' = false := rfl
  rw [spacedRun, widen_open, emit, next, hskip, lead]
  simp only [Bool.false_eq_true, if_false]
  split <;> rfl

theorem spacedRun_keep (hskip : k.skips c = false) :
    spacedRun k (c :: cs) = (k.widen c).lead c ++ c :: spacedRun (k.next c) cs := by
  have hmode : (k.widen c).mode = k.mode := by
    rw [widen]
    split <;> rfl
  have hskip' : (k.widen c).skips c = false := by rwa [skips, hmode]
  rw [spacedRun, emit, next, next, hskip, hskip', hmode, lead]
  simp only [Bool.false_eq_true, if_false]
  split <;> rfl

theorem spacedRun_blank (hc : isBlank c = true) :
    spacedRun ⟨.code, l, g⟩ (c :: cs) = spacedRun ⟨.code, l, true⟩ cs := by
  have hopen : c ≠ '(' := by rintro rfl; revert hc; decide
  rw [spacedRun_of_not fun h => hopen h.2]
  simp [emit, next, skips, opensGap, hc, Mode.next_code (.inl hc)]

/-- Before anything is written, gaps do not count. -/
theorem spacedRun_of_last_eq_none (m : Mode) (g g' : Bool) (cs : List Char) :
    spacedRun ⟨m, none, g⟩ cs = spacedRun ⟨m, none, g'⟩ cs := by
  induction cs generalizing m g g' with
  | nil => rfl
  | cons c cs ih =>
    have hspace : ∀ g, spaceBefore ⟨m, none, g⟩ c = false := fun g => Bool.and_false g
    have hskips : skips ⟨m, none, g⟩ c = skips ⟨m, none, g'⟩ c := rfl
    by_cases hopen : m = .code ∧ c = '('
    · obtain ⟨rfl, rfl⟩ := hopen
      rw [spacedRun_open, spacedRun_open]
    rw [spacedRun_of_not hopen, spacedRun_of_not hopen, emit, emit, next, next, hspace, hspace,
      hskips]
    split
    · rw [ih]
    · rfl

/-- Where a gap counts there is one, or the squeeze tells a gap from none nowhere. -/
theorem spacedRun_gap (h : g = true ∨ l = none) :
    spacedRun ⟨m, l, true⟩ cs = spacedRun ⟨m, l, g⟩ cs := by
  obtain rfl | rfl := h
  · rfl
  · exact spacedRun_of_last_eq_none ..

theorem run_blanks_append {bs : List Char} (h : ∀ b ∈ bs, isBlank b = true) :
    run ⟨.code, l, g⟩ (bs ++ cs) = run ⟨.code, l, g || !bs.isEmpty⟩ cs := by
  induction bs generalizing g with
  | nil => simp
  | cons b bs ih =>
    obtain ⟨hb, h⟩ := List.forall_mem_cons.mp h
    rw [List.cons_append, run_blank hb, ih h]
    simp

/-- A script with a space before each opening bracket of code. -/
theorem run_spread (k : Squeeze) (before : Option (Mode × Char)) (cs : List Char) :
    run k (spread (fun _ => true) (placesFrom k.mode before cs)) = spacedRun k cs := by
  induction cs generalizing k before with
  | nil => rfl
  | cons c cs ih =>
    rw [placesFrom]
    by_cases hopen : k.mode = .code ∧ c = '('
    · obtain ⟨m, l, g⟩ := k
      obtain ⟨rfl, rfl⟩ := hopen
      have ih := ih (next ⟨.code, l, true⟩ '(') (some (.code, '('))
      rw [spread_cons_of_opensList rfl, spacedRun, widen_open, ← ih, mode_next]
      exact run_blank (by decide)
    · rw [spread_cons_of_not_opensList (by simpa [Place.opensList] using hopen),
        spacedRun_of_not hopen, ← ih _ (some (k.mode, c)), mode_next]
      rfl

/-! ## A laid out script -/

/-- A squeeze and a layout at the same place of a script. Where the line is fresh, the squeeze has a
gap or has written nothing, and no string or escape goes on. -/
structure Follows (k : Squeeze) (p : Cursor) : Prop where
  mode : k.mode = p.mode
  gap : p.fresh = true → k.gap = true ∨ k.last = none
  outside : p.fresh = true → k.mode = .code ∨ k.mode = .comment

variable {p : Cursor} {d : Nat} {f : Bool}

theorem Follows.of_not_fresh (hmode : k.mode = p.mode) (h : p.fresh = false) : k.Follows p :=
  ⟨hmode, fun hf => absurd hf (by simp [h]), fun hf => absurd hf (by simp [h])⟩

/-- A character of code that a layout keeps. -/
theorem Follows.next_code (h : Follows ⟨.code, l, g⟩ ⟨.code, d, f⟩)
    (hc : (c = ' ' ∨ c = '\t') → f = false) :
    (next ⟨.code, l, g⟩ c).Follows (Cursor.next ⟨.code, d, f⟩ c) := by
  by_cases hbreak : isBreak c = true
  · have hblank := isBlank_of_isBreak hbreak
    have hnext : next ⟨.code, l, g⟩ c = ⟨.code, l, true⟩ := by
      simp [next, skips, opensGap, hblank, Mode.next_code (.inl hblank)]
    rw [hnext]
    exact ⟨(Mode.next_code (.inl hblank)).symm, fun _ => .inl rfl, fun _ => .inl rfl⟩
  by_cases hcomment : c = ';' ∧ f = true
  · obtain ⟨rfl, rfl⟩ := hcomment
    have hnext : next ⟨.code, l, g⟩ ';' = ⟨.comment, l, g⟩ := by
      have hblank : isBlank ';' = false := by decide
      simp [next, skips, opensGap, hblank, Mode.next]
    rw [hnext]
    exact ⟨rfl, h.gap, fun _ => .inr rfl⟩
  · refine .of_not_fresh (mode_next ..) ?_
    cases f with
    | false => simpa [Cursor.next, Cursor.freshAfter] using hbreak
    | true => simp_all [Cursor.next, Cursor.freshAfter]

/-- A character of a string, a comment or an escape. -/
theorem Follows.next_other (h : k.Follows p) (hm : p.mode ≠ .code) :
    (k.next c).Follows (p.next c) := by
  obtain ⟨m, l, g⟩ := k
  obtain ⟨_, d, f⟩ := p
  obtain rfl : m = _ := h.mode
  have hmode : (next ⟨m, l, g⟩ c).mode = m.next c := mode_next ..
  cases m with
  | code => exact absurd rfl hm
  | escaped => exact .of_not_fresh hmode rfl
  | comment =>
    refine ⟨hmode, fun hf => ?_, fun _ => ?_⟩
    · rcases Bool.or_eq_true_iff.mp hf with hbreak | hf
      · exact .inl (Bool.or_eq_true_iff.mpr (.inr hbreak))
      · exact (h.gap hf).imp_left fun hg => Bool.or_eq_true_iff.mpr (.inl hg)
    · rw [hmode, Mode.next]
      split
      · exact .inl rfl
      · exact .inr rfl
  | string | stringEscaped =>
    refine .of_not_fresh hmode ?_
    cases f with
    | false => rfl
    | true => rcases h.outside rfl with hmode | hmode <;> cases hmode

/-- A layout puts a gap before the bracket of a list, if there is none and one could count. -/
theorem Follows.run_lead {o : Layout} (ho : o.Plain) (h : Follows ⟨.code, l, g⟩ ⟨.code, d, f⟩) :
    run ⟨.code, l, g⟩ (o.lead ⟨.code, d, f⟩ ++ '(' :: cs) =
      lead ⟨.code, l, true⟩ '(' ++ '(' :: run ⟨.code, some '(', false⟩ cs := by
  have hgap : (g || !(o.lead ⟨.code, d, f⟩).isEmpty) = true ∨ l = none := by
    cases f with
    | true => exact (h.gap rfl).imp_left fun hg => by simp [show g = true from hg]
    | false => exact .inl (by simp [Layout.lead, ho.newline_ne])
  rw [run_blanks_append (ho.lead_blank _), run_bracket rfl]
  obtain hg | rfl := hgap
  · rw [hg]
  · simp [lead, spaceBefore]

theorem Follows.run_layout {o : Layout} (ho : o.Plain) (h : k.Follows p) (cs : List Char) :
    run k (o.run p cs) = spacedRun k cs := by
  induction cs generalizing k p with
  | nil => rfl
  | cons c cs ih =>
    obtain ⟨m, l, g⟩ := k
    obtain ⟨_, d, f⟩ := p
    obtain rfl : m = _ := h.mode
    by_cases hm : m = .code
    · subst hm
      by_cases hopen : c = '('
      · subst hopen
        rw [Layout.run_open, h.run_lead ho, spacedRun_open,
          ← ih (k := ⟨.code, some '(', false⟩) (p := ⟨.code, d + 1, false⟩) (.of_not_fresh rfl rfl)]
      by_cases hdrop : (c = ' ' ∨ c = '\t') ∧ f = true
      · -- The line is fresh, so that a blank adds nothing to what stands before it.
        obtain ⟨hc, rfl⟩ := hdrop
        have hblank : isBlank c = true := by rcases hc with rfl | rfl <;> decide
        rw [Layout.run_drop o hc, spacedRun_blank hblank, spacedRun_gap (h.gap rfl)]
        exact ih h
      · have hkeep : (c = ' ' ∨ c = '\t') → f = false := by simpa using hdrop
        rw [Layout.run_keep o hopen hkeep, run, spacedRun_of_not (fun hc => hopen hc.2),
          ih (h.next_code hkeep)]
    · rw [Layout.run_of_ne_code o hm, run, spacedRun_of_not (fun hc => hm hc.1),
        ih (h.next_other hm)]

/-! ## A script whose brackets are set apart -/

theorem lead_open (l : Option Char) :
    lead ⟨.code, l, true⟩ '(' = if l.all isOpening then [] else [' '] := by
  cases l with
  | none => rfl
  | some x =>
    cases hx : isOpening x with
    | true => simp [lead_of_isOpening hx, hx]
    | false => simp [lead_of_not_isOpening hx (show '(' ≠ ')' ∧ '(' ≠ ']' by decide), hx]

/-- Where a bracket of code would be set apart, a gap before it would change nothing. -/
def Minds (k : Squeeze) (before : Option (Mode × Char)) : Prop :=
  k.mode = .code → Place.apart ⟨.code, before, '('⟩ = true →
    k.gap = true ∨ k.last.all isOpening = true

theorem minds_next (k : Squeeze) (c : Char) : (k.next c).Minds (some (k.mode, c)) := by
  intro hcode hapart
  rw [mode_next] at hcode
  obtain ⟨m, l, g⟩ := k
  simp only [Place.apart, Bool.or_eq_true, Bool.and_eq_true, decide_eq_true_eq] at hapart
  by_cases hskip : skips ⟨m, l, g⟩ c = true
  · left
    have hgap : opensGap ⟨m, l, g⟩ c = true := by
      cases m with
      | code =>
        have hcomment : c ≠ ';' := by rintro rfl; cases hcode
        simpa [skips, opensGap, hcomment] using hskip
      | comment =>
        by_contra hbreak
        have hbreak : isBreak c = false := Bool.not_eq_true _ ▸ hbreak
        simp [Mode.next, hbreak] at hcode
      | escaped | string | stringEscaped => cases hskip
    simp [next, hskip, hgap]
  · right
    have hopening : isOpening c = true := by
      rcases hapart with (hopening | ⟨rfl, hblank⟩) | ⟨rfl, -⟩
      · exact hopening
      · simp [skips, hblank] at hskip
      · exact absurd rfl hskip
    simp [next, hskip, hopening]

theorem run_of_apart {before : Option (Mode × Char)} (hk : k.Minds before)
    (h : ∀ x ∈ placesFrom k.mode before cs, x.opensList = true → x.apart = true) :
    run k cs = spacedRun k cs := by
  induction cs generalizing k before with
  | nil => rfl
  | cons c cs ih =>
    obtain ⟨hc, h⟩ := List.forall_mem_cons.mp h
    rw [← mode_next] at h
    have ih := ih (minds_next k c) h
    by_cases hopen : k.mode = .code ∧ c = '('
    · obtain ⟨m, l, g⟩ := k
      obtain ⟨rfl, rfl⟩ := hopen
      have hlead : lead ⟨.code, l, g⟩ '(' = lead ⟨.code, l, true⟩ '(' := by
        rcases hk rfl (hc rfl) with hg | hl
        · rw [show g = true from hg]
        · have hl : l.all isOpening = true := hl
          cases g with
          | true => rfl
          | false => rw [lead_of_no_gap, lead_open, if_pos hl]
      rw [run_bracket rfl, spacedRun_open, hlead]
      exact congrArg (_ ++ '(' :: ·) ih
    · rw [run, spacedRun_of_not hopen, ih]

/-! ## A squeezed script -/

/-- The mode in which a scan over the squeezed text goes on: of a comment nothing is left. -/
def outMode : Mode → Mode
  | .comment => .code
  | m => m

/-- What a squeeze has written last, with the mode that it has in the squeezed text. -/
structure Wrote (k : Squeeze) (before : Option (Mode × Char)) : Prop where
  last : k.last = before.map Prod.snd
  visible : ∀ m b, before = some (m, b) → m ≠ .comment ∧ ¬(m = .code ∧ isBlank b = true)
  gap : k.gap = true → outMode k.mode = .code

theorem wrote_nothing : Wrote {} none where
  last := rfl
  visible _ _ h := by cases h
  gap h := absurd h Bool.false_ne_true

theorem Wrote.apart {before : Option (Mode × Char)} (h : k.Wrote before) :
    Place.apart ⟨m, before, c⟩ = k.last.all isOpening := by
  rw [h.last]
  cases before with
  | none => rfl
  | some p =>
    obtain ⟨hcomment, hblank⟩ := h.visible p.1 p.2 rfl
    simp_all [Place.apart]

theorem Wrote.skip {before : Option (Mode × Char)} (h : k.Wrote before)
    (hskip : k.skips c = true) :
    (k.next c).Wrote before ∧ outMode (k.next c).mode = outMode k.mode := by
  obtain ⟨m, l, g⟩ := k
  have hnext : next ⟨m, l, g⟩ c = ⟨m.next c, l, g || opensGap ⟨m, l, g⟩ c⟩ := by simp [next, hskip]
  have hout : outMode (m.next c) = .code ∧ outMode m = .code := by
    cases m with
    | code =>
      simp only [skips, Bool.or_eq_true, decide_eq_true_eq] at hskip
      rcases hskip with rfl | hblank
      · exact ⟨rfl, rfl⟩
      · rw [Mode.next_code (.inl hblank)]
        exact ⟨rfl, rfl⟩
    | comment =>
      rw [Mode.next]
      split <;> exact ⟨rfl, rfl⟩
    | escaped | string | stringEscaped => cases hskip
  rw [hnext]
  exact ⟨⟨h.last, h.visible, fun _ => hout.1⟩, hout.1.trans hout.2.symm⟩

theorem Wrote.keep {before : Option (Mode × Char)} (h : k.Wrote before)
    (hskip : k.skips c = false) :
    (k.next c).Wrote (some (k.mode, c)) ∧ outMode (k.next c).mode = k.mode.next c ∧
      outMode k.mode = k.mode := by
  obtain ⟨m, l, g⟩ := k
  have hnext : next ⟨m, l, g⟩ c = ⟨m.next c, some c, false⟩ := by simp [next, hskip]
  have hcomment : m ≠ .comment := by rintro rfl; cases hskip
  have hblank : ¬(m = .code ∧ isBlank c = true) := by
    rintro ⟨rfl, hblank⟩
    simp [skips, hblank] at hskip
  have hout : outMode (m.next c) = m.next c := by
    cases m with
    | code =>
      have hc : c ≠ ';' := by rintro rfl; cases hskip
      simp only [Mode.next, if_neg hc]
      split_ifs <;> rfl
    | comment => exact absurd rfl hcomment
    | escaped | stringEscaped => rfl
    | string =>
      rw [Mode.next]
      split_ifs <;> rfl
  rw [hnext]
  refine ⟨⟨rfl, ?_, fun hgap => absurd hgap Bool.false_ne_true⟩, hout, ?_⟩
  · rintro _ _ ⟨⟩
    exact ⟨hcomment, hblank⟩
  · cases m <;> first | rfl | exact absurd rfl hcomment

theorem lead_cases (k : Squeeze) (c : Char) :
    k.lead c = [] ∨ k.lead c = [' '] ∧ k.gap = true := by
  rw [lead]
  split
  · next hdue => exact .inr ⟨rfl, (Bool.and_eq_true_iff.mp hdue).1⟩
  · exact .inl rfl

/-- The bracket of a list that is written without a space before it is given one just where a gap
would have counted. -/
theorem Wrote.spread_lead {before : Option (Mode × Char)} (h : k.Wrote before)
    (hskip : k.skips c = false) (rest : List Char) :
    spread (!·.apart) (placesFrom (outMode k.mode) before (k.lead c ++ c :: rest)) =
      (k.widen c).lead c ++ c :: spread (!·.apart)
        (placesFrom (outMode (k.next c).mode) (some (k.mode, c)) rest) := by
  obtain ⟨-, hnext, hmode⟩ := h.keep hskip
  rw [hnext, hmode]
  rcases lead_cases k c with hlead | ⟨hlead, hgap⟩
  · rw [hlead, List.nil_append, placesFrom]
    by_cases hopen : k.mode = .code ∧ c = '('
    · rw [spread_cons_of_opensList (Place.opensList_eq_true_iff.mpr hopen), h.apart]
      obtain ⟨m, l, g⟩ := k
      obtain ⟨rfl, rfl⟩ := hopen
      rw [widen_open, lead_open]
      cases l.all isOpening <;> rfl
    · rw [spread_cons_of_not_opensList (by simpa [Place.opensList] using hopen), widen_of_not hopen,
        hlead]
      rfl
  · -- The space before the character sets it apart already.
    have hcode : k.mode = .code := hmode ▸ h.gap hgap
    have hspace : Mode.code.next ' ' = .code := rfl
    have hapart : Place.apart ⟨.code, some (.code, ' '), c⟩ = true := rfl
    rw [widen_of_gap hgap, hlead, hcode, List.singleton_append, placesFrom,
      spread_cons_of_not_opensList rfl, hspace, placesFrom, spread_cons_of_apart hapart]
    rfl

/-- What a squeeze writes, with a space before each bracket that is not set apart. -/
theorem spread_run {before : Option (Mode × Char)} (h : k.Wrote before) (cs : List Char) :
    spread (!·.apart) (placesFrom (outMode k.mode) before (run k cs)) = spacedRun k cs := by
  induction cs generalizing k before with
  | nil => rfl
  | cons c cs ih =>
    cases hskip : k.skips c with
    | true =>
      obtain ⟨hnext, hmode⟩ := h.skip hskip
      have hopen : ¬(k.mode = .code ∧ c = '(') := by
        rintro ⟨hcode, rfl⟩
        rw [skips, hcode] at hskip
        cases hskip
      have hemit : k.emit c = [] := by simp [emit, hskip]
      rw [run, spacedRun_of_not hopen, hemit, ← hmode]
      exact ih hnext
    | false =>
      have hnext : k.next c = ⟨k.mode.next c, some c, false⟩ := by simp [next, hskip]
      rw [run_keep hskip, h.spread_lead hskip, spacedRun_keep hskip, ← hnext, ih (h.keep hskip).1]

end Squeeze

/-! ## Scripts -/

/-- A squeezed layout is the squeezed script with a space before each opening bracket of code; it is
what a squeeze makes of the script itself but for the brackets that stood right after a token, which
are set apart from it. Where there are none, a squeeze undoes a layout. -/
theorem minify_prettyWith {o : Layout} (ho : o.Plain) (code : String) :
    minify (prettyWith o code) = minify (spaced code) ∧
      minify (prettyWith o code) = unglued (minify code) ∧
      (Loose code → minify (prettyWith o code) = minify code ∧ minify (pretty code) = minify code) := by
  have hlayout : ∀ o : Layout, o.Plain →
      minify (prettyWith o code) = String.ofList (Squeeze.spacedRun {} code.toList) := by
    intro o ho
    have hfollows : Squeeze.Follows {} {} := ⟨rfl, fun _ => .inr rfl, fun _ => .inl rfl⟩
    rw [minify, prettyWith, String.toList_ofList, hfollows.run_layout ho]
  refine ⟨?_, ?_, fun hloose => ?_⟩
  · rw [hlayout o ho, minify, spaced, String.toList_ofList]
    exact congrArg String.ofList (Squeeze.run_spread {} none code.toList).symm
  · rw [hlayout o ho, minify, unglued, places, String.toList_ofList]
    exact congrArg String.ofList (Squeeze.spread_run Squeeze.wrote_nothing code.toList).symm
  · have hminds : Squeeze.Minds {} none := fun _ _ => .inr rfl
    have hrun : minify code = String.ofList (Squeeze.spacedRun {} code.toList) :=
      congrArg String.ofList (Squeeze.run_of_apart hminds hloose)
    exact ⟨(hlayout o ho).trans hrun.symm, (hlayout {} Layout.plain_default).trans hrun.symm⟩

/-- Brackets that follow an atom, a string and an escaped blank are set apart; those after a
comment's end, a blank, a line break and an escaped bracket stay as they are. -/
theorem minify_prettyWith_tabbed :
    let o : Layout := ⟨"\t", "\r\n"⟩
    let glued := "(f(g \"((\"(h))\\ (i))"
    let loose := "; (\r(f\u00a0(#\\(( a) ; x\n(b \"(\\\"\") [(c)])"
    o.Plain ∧ minify (prettyWith o glued) = minify (spaced glued) ∧
      minify (prettyWith o glued) = unglued "(f(g \"((\"(h))\\ (i))" ∧
      unglued "(f(g \"((\"(h))\\ (i))" = "(f (g \"((\" (h))\\  (i))" ∧
      Loose loose ∧ minify (prettyWith o loose) = "(f (#\\((a) (b \"(\\\"\") [(c)])" := by
  intro o glued loose
  have ho : o.Plain := by decide
  have hsqueezed : minify glued = "(f(g \"((\"(h))\\ (i))" := by decide +kernel
  have hloose : Loose loose := by decide +kernel
  have hminify : minify loose = "(f (#\\((a) (b \"(\\\"\") [(c)])" := by decide +kernel
  obtain ⟨hspaced, hunglued, -⟩ := minify_prettyWith ho glued
  obtain ⟨-, -, hundone⟩ := minify_prettyWith ho loose
  rw [hsqueezed] at hunglued
  exact ⟨ho, hspaced, hunglued, by decide +kernel, hloose, (hundone hloose).1.trans hminify⟩

end LispBridge.Format
