import LispBridge.Proofs.Chars.Words
import LispBridge.Proofs.Number.Numeral
import LispBridge.Settings

/-!
# What a settings file comes to

A line of a settings file means nothing (`Settings.Idle`), assigns a value to a setting
(`Settings.Assigns`), or fails with a fault (`Settings.Fails`), and it does just one of the three
(`Settings.line_cases`). Reading a file keeps the last value that is assigned to each setting and
lists the faults by their lines: `Settings.last_assignment_wins`.
-/

namespace LispBridge.Settings

open Chars

/-! ## Lines -/

/-- The line is blank or a comment. -/
def Idle (line : List Char) : Prop := trim line = [] ∨ ∃ rest, trim line = ';' :: rest

/-- The line is cut at its first equals sign, and the blanks around both parts are removed. -/
inductive Cut (line : List Char) : List Char → List Char → Prop
  | intro {before after : List Char} : trim line = before ++ '=' :: after → '=' ∉ before →
      Cut line (trim before) (trim after)

/-- The text without its underscores is a numeral. -/
def Writes (n : Nat) (value : List Char) : Prop := Numeral n (value.filter (· ≠ '_'))

/-- The line gives a setting a value in the setting's range. -/
inductive Assigns (line : List Char) : Key → Nat → Prop
  | intro {key value n} : ¬Idle line → Cut line key.name.toList value → Writes n value →
      n < key.bound → key.least ≤ n → Assigns line key n

/-- The line is meant to give a setting a value but does not, for the reason given. -/
inductive Fails (line : List Char) : Fault → Prop
  | noAssignment : ¬Idle line → '=' ∉ trim line →
      Fails line (.noAssignment (String.ofList (trim line)))
  | unknownKey {name value} : ¬Idle line → Cut line name value →
      (∀ key : Key, name ≠ key.name.toList) → Fails line (.unknownKey (String.ofList name))
  | badNumber {key : Key} {value} : ¬Idle line → Cut line key.name.toList value →
      (∀ n < key.bound, ¬Writes n value) →
      Fails line (.badNumber key.name (String.ofList value))
  | notPositive {key : Key} {value} : ¬Idle line → Cut line key.name.toList value →
      Writes 0 value → Fails line (.notPositive key.name)
  | answerTooSmall {value n} : ¬Idle line → Cut line Key.answerCapacity.name.toList value →
      Writes n value → 0 < n → n < minAnswerCapacity → Fails line (.answerTooSmall n)

section
variable {line value : List Char} {key : Key} {n : Nat} {fault : Fault}

theorem isIdle_iff : isIdle (trim line) = true ↔ Idle line := by
  unfold isIdle Idle
  split <;> simp_all

theorem Key.ofName?_eq_some_iff {name : String} : ofName? name = some key ↔ name = key.name := by
  constructor
  · intro h
    have hfound : all.find? (fun k => k.name == name) = some key := h
    have hname := List.find?_some hfound
    exact (beq_iff_eq.mp hname).symm
  · rintro rfl
    cases key <;> rfl

theorem Key.bound_pos (key : Key) : 0 < key.bound := by
  cases key <;> decide

theorem Key.least_pos (key : Key) : 0 < key.least := by
  cases key <;> decide

/-- Only the answer buffer has a least size beyond one. -/
theorem Key.eq_answerCapacity (hpos : 0 < n) (h : n < key.least) : key = .answerCapacity := by
  cases key with
  | answerCapacity => rfl
  | _ => exact absurd hpos (Nat.not_lt_of_le (Nat.le_of_lt_succ h))

theorem Cut.assigns_or_fails (hcut : Cut line key.name.toList value) (hidle : ¬Idle line) :
    (∃ n, Assigns line key n) ∨ ∃ fault, Fails line fault := by
  by_cases h : ∃ n < key.bound, Writes n value
  · obtain ⟨n, hlt, hn⟩ := h
    by_cases hle : key.least ≤ n
    · exact .inl ⟨n, .intro hidle hcut hn hlt hle⟩
    · right
      obtain rfl | hpos := Nat.eq_zero_or_pos n
      · exact ⟨_, .notPositive hidle hcut hn⟩
      · have hlt := Nat.lt_of_not_le hle
        obtain rfl := Key.eq_answerCapacity hpos hlt
        exact ⟨_, .answerTooSmall hidle hcut hn hpos hlt⟩
  · exact .inr ⟨_, .badNumber hidle hcut fun n hlt hn => h ⟨n, hlt, hn⟩⟩

theorem line_cases (line : List Char) :
    Idle line ∨ (∃ key n, Assigns line key n) ∨ ∃ fault, Fails line fault := by
  refine or_iff_not_imp_left.mpr fun hidle => ?_
  cases hsplit : splitOnce '=' (trim line) with
  | none => exact .inr ⟨_, .noAssignment hidle (splitOnce_eq_none_iff.mp hsplit)⟩
  | some parts =>
    obtain ⟨hline, hbefore⟩ := splitOnce_eq_some_iff.mp hsplit
    have hcut := Cut.intro hline hbefore
    by_cases hname : ∃ key : Key, trim parts.1 = key.name.toList
    · obtain ⟨key, hname⟩ := hname
      rw [hname] at hcut
      exact (hcut.assigns_or_fails hidle).imp_left (Exists.intro key)
    · exact .inr ⟨_, .unknownKey hidle hcut fun key heq => hname ⟨key, heq⟩⟩

/-! ## Reading a line -/

theorem valueOf_of_writes (hn : Writes n value) (hlt : n < key.bound) : valueOf key value =
    if n = 0 then .error (.notPositive key.name)
    else if n < key.least then .error (.answerTooSmall n) else .ok n := by
  rw [valueOf, unsigned?_eq_some_iff.mpr ⟨hn, hlt⟩]
  split
  · next h => cases h
  · next h =>
    obtain rfl := Option.some.inj h
    rfl
  · next m hne h =>
    obtain rfl := Option.some.inj h
    rw [if_neg hne]

theorem Cut.exists_splitOnce {name : List Char} (h : Cut line name value) : ∃ before after,
    splitOnce '=' (trim line) = some (before, after) ∧ trim before = name ∧ trim after = value := by
  obtain ⟨hline, hbefore⟩ := h
  exact ⟨_, _, splitOnce_eq_some_iff.mpr ⟨hline, hbefore⟩, rfl, rfl⟩

theorem Cut.assignmentOf_eq (h : Cut line key.name.toList value) :
    assignmentOf (trim line) = (valueOf key value).map fun n => (key, n) := by
  obtain ⟨before, after, hsplit, hname, rfl⟩ := h.exists_splitOnce
  have hkey : Key.ofName? (String.ofList (trim before)) = some key := by
    rw [hname, String.ofList_toList]
    exact Key.ofName?_eq_some_iff.mpr rfl
  rw [assignmentOf, hsplit]
  simp only [hkey]

theorem Assigns.assignmentOf_eq (h : Assigns line key n) :
    assignmentOf (trim line) = .ok (key, n) := by
  obtain ⟨-, hcut, hn, hlt, hle⟩ := h
  have hne : n ≠ 0 := Nat.ne_of_gt (Nat.lt_of_lt_of_le key.least_pos hle)
  rw [hcut.assignmentOf_eq, valueOf_of_writes hn hlt, if_neg hne, if_neg (Nat.not_lt_of_le hle)]
  rfl

theorem Fails.assignmentOf_eq (h : Fails line fault) : assignmentOf (trim line) = .error fault := by
  cases h with
  | noAssignment _ hnone => rw [assignmentOf, splitOnce_eq_none_iff.mpr hnone]
  | unknownKey _ hcut hname =>
    obtain ⟨before, after, hsplit, rfl, -⟩ := hcut.exists_splitOnce
    have hkey : Key.ofName? (String.ofList (trim before)) = none := by
      refine Option.eq_none_iff_forall_ne_some.mpr fun key hkey => hname key ?_
      rw [← Key.ofName?_eq_some_iff.mp hkey, String.toList_ofList]
    rw [assignmentOf, hsplit]
    simp only [hkey]
  | @badNumber key value _ hcut hbad =>
    have hnone : unsigned? key.bound (value.filter (· ≠ '_')) = none := by
      refine Option.eq_none_iff_forall_ne_some.mpr fun n hn => ?_
      obtain ⟨hn, hlt⟩ := unsigned?_eq_some_iff.mp hn
      exact hbad n hlt hn
    rw [hcut.assignmentOf_eq, valueOf, hnone]
    rfl
  | notPositive _ hcut hn =>
    rw [hcut.assignmentOf_eq, valueOf_of_writes hn (Key.bound_pos _)]
    rfl
  | answerTooSmall _ hcut hn hpos hlt =>
    have hbound := Nat.lt_trans hlt (by decide : minAnswerCapacity < Key.answerCapacity.bound)
    rw [hcut.assignmentOf_eq, valueOf_of_writes hn hbound, if_neg (Nat.ne_of_gt hpos)]
    exact congrArg (Except.map _) (if_pos hlt)

theorem Assigns.not_idle (h : Assigns line key n) : ¬Idle line := by
  obtain ⟨hidle, -⟩ := h
  exact hidle

theorem Fails.not_idle (h : Fails line fault) : ¬Idle line := by
  cases h <;> assumption

theorem Fails.not_assigns (h : Fails line fault) (key : Key) (n : Nat) : ¬Assigns line key n :=
  fun h' => nomatch h.assignmentOf_eq.symm.trans h'.assignmentOf_eq

theorem Fails.unique {fault' : Fault} (h : Fails line fault) (h' : Fails line fault') :
    fault = fault' :=
  Except.error.inj (h.assignmentOf_eq.symm.trans h'.assignmentOf_eq)

theorem assigns_iff :
    Assigns line key n ↔ isIdle (trim line) = false ∧ assignmentOf (trim line) = .ok (key, n) := by
  refine ⟨fun h => ⟨by simpa using mt isIdle_iff.mp h.not_idle, h.assignmentOf_eq⟩, ?_⟩
  rintro ⟨hidle, hread⟩
  obtain h | ⟨key', n', h⟩ | ⟨fault, h⟩ := line_cases line
  · rw [isIdle_iff.mpr h] at hidle
    cases hidle
  · cases h.assignmentOf_eq.symm.trans hread
    exact h
  · cases h.assignmentOf_eq.symm.trans hread

theorem fails_iff :
    Fails line fault ↔ isIdle (trim line) = false ∧ assignmentOf (trim line) = .error fault := by
  refine ⟨fun h => ⟨by simpa using mt isIdle_iff.mp h.not_idle, h.assignmentOf_eq⟩, ?_⟩
  rintro ⟨hidle, hread⟩
  obtain h | ⟨key', n', h⟩ | ⟨fault', h⟩ := line_cases line
  · rw [isIdle_iff.mpr h] at hidle
    cases hidle
  · cases h.assignmentOf_eq.symm.trans hread
  · cases h.assignmentOf_eq.symm.trans hread
    exact h

end

/-! ## Reading lines -/

section
variable {line : List Char} {key : Key} {v : Nat} {fault : Fault} {s : Settings} {i : Nat}
  {ls past later : List (List Char)}

theorem Idle.readLines_cons (h : Idle line) :
    readLines i s (line :: ls) = readLines (i + 1) s ls := by
  rw [readLines, if_pos (isIdle_iff.mpr h)]

theorem Assigns.readLines_cons (h : Assigns line key v) :
    readLines i s (line :: ls) = readLines (i + 1) (s.set key v) ls := by
  rw [readLines, if_neg (mt isIdle_iff.mp h.not_idle), h.assignmentOf_eq]

theorem Fails.readLines_cons (h : Fails line fault) : readLines i s (line :: ls) =
    ((readLines (i + 1) s ls).1, ⟨i, fault⟩ :: (readLines (i + 1) s ls).2) := by
  rw [readLines, if_neg (mt isIdle_iff.mp h.not_idle), h.assignmentOf_eq]

theorem readLines_append : readLines i s (past ++ later) =
    ((readLines (i + past.length) (readLines i s past).1 later).1,
      (readLines i s past).2 ++ (readLines (i + past.length) (readLines i s past).1 later).2) := by
  induction past generalizing i s with
  | nil => rfl
  | cons line past ih =>
    have hlength : i + (line :: past).length = i + 1 + past.length := by
      rw [List.length_cons]
      omega
    rw [List.cons_append, hlength]
    obtain h | ⟨key, v, h⟩ | ⟨fault, h⟩ := line_cases line
    · rw [h.readLines_cons, h.readLines_cons, ih]
    · rw [h.readLines_cons, h.readLines_cons, ih]
    · rw [h.readLines_cons, h.readLines_cons, ih]
      rfl

/-- The numbers of the lines make no difference to the settings. -/
theorem readLines_fst (i j : Nat) : (readLines i s ls).1 = (readLines j s ls).1 := by
  induction ls generalizing i j s with
  | nil => rfl
  | cons line ls ih =>
    obtain h | ⟨key, v, h⟩ | ⟨fault, h⟩ := line_cases line
    · rw [h.readLines_cons, h.readLines_cons, ih]
    · rw [h.readLines_cons, h.readLines_cons, ih]
    · rw [h.readLines_cons, h.readLines_cons, ih]

/-- A line that assigns nothing changes no setting. -/
theorem readLines_cons_fst (h : ∀ key v, ¬Assigns line key v) :
    (readLines i s (line :: ls)).1 = (readLines i s ls).1 := by
  obtain hidle | ⟨key, v, hassigns⟩ | ⟨fault, hfails⟩ := line_cases line
  · rw [hidle.readLines_cons, readLines_fst]
  · exact absurd hassigns (h key v)
  · rw [hfails.readLines_cons, readLines_fst]

theorem get_readLines_of_not_assigns (h : ∀ line ∈ ls, ∀ v, ¬Assigns line key v) :
    (readLines i s ls).1.get key = s.get key := by
  induction ls generalizing i s with
  | nil => rfl
  | cons line ls ih =>
    obtain ⟨hline, hls⟩ := List.forall_mem_cons.mp h
    obtain h | ⟨key', v, h⟩ | ⟨fault, h⟩ := line_cases line
    · rw [h.readLines_cons, ih hls]
    · rw [h.readLines_cons, ih hls, get_set, if_neg]
      rintro rfl
      exact hline v h
    · rw [h.readLines_cons, ih hls]

/-- A line assigns the value to the setting, and none after it assigns one. -/
def Latest (key : Key) (ls : List (List Char)) (v : Nat) : Prop :=
  ∃ past line later, ls = past ++ line :: later ∧ Assigns line key v ∧
    ∀ line ∈ later, ∀ w, ¬Assigns line key w

theorem get_readLines_of_latest (h : Latest key ls v) : (readLines i s ls).1.get key = v := by
  obtain ⟨past, line, later, rfl, hline, hlater⟩ := h
  rw [readLines_append, hline.readLines_cons, get_readLines_of_not_assigns hlater, get_set,
    if_pos rfl]

theorem mem_readLines_iff {e : LineFault} : e ∈ (readLines i s ls).2 ↔
    ∃ n line, ls[n]? = some line ∧ e.line = i + n ∧ Fails line e.fault := by
  induction ls generalizing i s with
  | nil => exact iff_of_false nofun (by simp)
  | cons line ls ih =>
    have hrest : (∃ n l, (line :: ls)[n]? = some l ∧ e.line = i + n ∧ Fails l e.fault) ↔
        e.line = i ∧ Fails line e.fault ∨
          ∃ n l, ls[n]? = some l ∧ e.line = i + 1 + n ∧ Fails l e.fault := by
      constructor
      · rintro ⟨- | n, l, hl, hn, hfails⟩
        · obtain rfl := Option.some.inj hl
          exact .inl ⟨hn, hfails⟩
        · exact .inr ⟨n, l, hl, by omega, hfails⟩
      · rintro (⟨hn, hfails⟩ | ⟨n, l, hl, hn, hfails⟩)
        · exact ⟨0, line, rfl, hn, hfails⟩
        · exact ⟨n + 1, l, hl, by omega, hfails⟩
    rw [hrest]
    obtain h | ⟨key, v, h⟩ | ⟨fault, h⟩ := line_cases line
    · rw [h.readLines_cons, ih, or_iff_right fun hfails => hfails.2.not_idle h]
    · rw [h.readLines_cons, ih, or_iff_right fun hfails => hfails.2.not_assigns key v h]
    · rw [h.readLines_cons, List.mem_cons, ih]
      refine or_congr_left ?_
      constructor
      · rintro rfl
        exact ⟨rfl, h⟩
      · rintro ⟨hi, hfails⟩
        obtain ⟨n, fault'⟩ := e
        obtain rfl : n = i := hi
        rw [h.unique hfails]

theorem pairwise_readLines : (readLines i s ls).2.Pairwise (·.line < ·.line) := by
  induction ls generalizing i s with
  | nil => exact .nil
  | cons line ls ih =>
    obtain h | ⟨key, v, h⟩ | ⟨fault, h⟩ := line_cases line
    · rw [h.readLines_cons]
      exact ih
    · rw [h.readLines_cons]
      exact ih
    · rw [h.readLines_cons]
      refine .cons (fun e he => ?_) ih
      obtain ⟨n, -, -, hn, -⟩ := mem_readLines_iff.mp he
      rw [hn]
      exact Nat.lt_of_lt_of_le (Nat.lt_succ_self i) (Nat.le_add_right ..)

end

/-- Each setting has the value of the last line that assigns it one, and its default without such a
line. The faults come in the order of their lines, which are counted from one: each line that is
neither idle nor assigns a value has one fault, no other line has any, and without a line that
assigns nothing the settings are the same. -/
theorem last_assignment_wins (text : String) :
    let ls := lines text.toList
    let s := (ofText text).1
    let faults := (ofText text).2
    (∀ key v, Latest key ls v → s.get key = v) ∧
    (∀ key, (∀ line ∈ ls, ∀ v, ¬Assigns line key v) → s.get key = ({} : Settings).get key) ∧
    faults.Pairwise (·.line < ·.line) ∧
    (∀ e, e ∈ faults ↔ ∃ n line, ls[n]? = some line ∧ e.line = n + 1 ∧ Fails line e.fault) ∧
    (∀ line, (¬Idle line ∧ ∀ key v, ¬Assigns line key v) ↔ ∃ fault, Fails line fault) ∧
    (∀ line fault fault', Fails line fault → Fails line fault' → fault = fault') ∧
    (∀ past line later text', ls = past ++ line :: later → (∀ key v, ¬Assigns line key v) →
      lines text'.toList = past ++ later → (ofText text').1 = s) ∧
    1 ≤ s.maxHeap ∧ 1 ≤ s.taskLimit ∧ 1 ≤ s.outputCapacity ∧ 3 ≤ s.answerCapacity := by
  intro ls s faults
  have hleast := least_le_get_ofText text
  refine ⟨fun key v => get_readLines_of_latest, fun key => get_readLines_of_not_assigns,
    pairwise_readLines, fun e => ?_, fun line => ⟨?_, ?_⟩, fun line fault fault' => Fails.unique,
    ?_, hleast .maxHeap, hleast .taskLimit, hleast .outputCapacity, hleast .answerCapacity⟩
  · simp only [faults, ofText, mem_readLines_iff, Nat.add_comm 1, ls]
  · rintro ⟨hidle, hnone⟩
    obtain h | ⟨key, v, h⟩ | h := line_cases line
    · exact absurd h hidle
    · exact absurd h (hnone key v)
    · exact h
  · rintro ⟨fault, h⟩
    exact ⟨h.not_idle, h.not_assigns⟩
  · intro past line later text' hls hnone htext'
    have hlines : lines text.toList = past ++ line :: later := hls
    simp only [s, ofText]
    rw [htext', hlines, readLines_append, readLines_append,
      readLines_cons_fst hnone]

/-- A setting that two lines assign, with other lines around them that assign nothing. -/
theorem last_assignment_wins_twice :
    let text := "task_limit = 7\n; task_limit = 1\nmax_heap\ntask_limit=+1_0 \ntask_limit = 0"
    let s := (ofText text).1
    s.taskLimit = 10 ∧ s.maxHeap = 10000 ∧ ⟨3, .noAssignment "max_heap"⟩ ∈ (ofText text).2 ∧
      3 ≤ s.answerCapacity := by
  intro text s
  obtain ⟨hlatest, hdefault, -, hfaults, -, -, -, -, -, -, hanswer⟩ := last_assignment_wins text
  have hten : Assigns "task_limit=+1_0 ".toList .taskLimit 10 :=
    assigns_iff.mpr ⟨by decide, by rfl⟩
  have hzero : Fails "task_limit = 0".toList (.notPositive "task_limit") :=
    fails_iff.mpr ⟨by decide, by rfl⟩
  have hword : Fails "max_heap".toList (.noAssignment "max_heap") :=
    fails_iff.mpr ⟨by decide, by rfl⟩
  have htask : Latest .taskLimit (lines text.toList) 10 :=
    ⟨(lines text.toList).take 3, _, ["task_limit = 0".toList], by decide, hten,
      List.forall_mem_singleton.mpr fun w => hzero.not_assigns .taskLimit w⟩
  have hkeys : ∀ line ∈ lines text.toList,
      (assignmentOf (trim line)).toOption.all (·.1 ≠ .maxHeap) = true := by decide
  have hheap : ∀ line ∈ lines text.toList, ∀ v, ¬Assigns line .maxHeap v := by
    intro line hline v h
    have hkey := hkeys line hline
    rw [h.assignmentOf_eq] at hkey
    cases hkey
  exact ⟨hlatest _ _ htask, hdefault .maxHeap hheap, (hfaults _).mpr ⟨2, _, by decide, rfl, hword⟩,
    hanswer⟩

end LispBridge.Settings
