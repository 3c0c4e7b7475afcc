import Mathlib.Data.List.Induction
import LispBridge.Proofs.Device.History

/-!
# What a pin holds

A pin holds the value that was stored on it last, be it by a request or by the user interface, and
its initial value if there is none or its click has been asked for since (`Emulator.pin_run_eq`,
`Emulator.pin_run_eq_initial`). `Emulator.pins_follow_history` says what requests see of that.
-/

namespace LispBridge.Device

variable {counts : PinCounts} {kind : PinKind} {n : Nat} {v : HostValue} {a : Action}
  {actions : List Action}

namespace Action

def Touches (counts : PinCounts) (a : Action) (kind : PinKind) (n : Nat) : Prop :=
  (∃ v, a.Stores counts kind n v) ∨ a.Forgets counts kind n

/-- A request touches a pin only if it is a valid one for that pin. -/
theorem reaches_of_touches {r : Request} (h : (Action.request r).Touches counts kind n) :
    Reaches counts r kind n := by
  obtain ⟨v, hstores⟩ | hforgets := h
  · cases hstores with
    | digitalWrite hr | analogWrite hr => exact hr
  · cases hforgets with
    | takeClick hr => exact hr

theorem stores_input_iff (hkind : kind = .digitalIn ∨ kind = .analogIn) :
    a.Stores counts kind n v ↔ a = .setPin kind n v := by
  constructor
  · rintro (_ | _ | _ | _)
    · rfl
    all_goals simp at hkind
  · rintro rfl
    exact .setPin

theorem touches_input_iff (hkind : kind = .digitalIn ∨ kind = .analogIn) :
    a.Touches counts kind n ↔ ∃ v, a = .setPin kind n v := by
  have hforgets : ¬a.Forgets counts kind n := by
    rintro ⟨-⟩
    simp at hkind
  simp only [Touches, stores_input_iff hkind, hforgets, or_false]

end Action

/-- The value was stored on a pin, and nothing has touched the pin since. -/
def Latest (counts : PinCounts) (kind : PinKind) (n : Nat) (actions : List Action)
    (v : HostValue) : Prop :=
  ∃ past a later, actions = past ++ a :: later ∧ a.Stores counts kind n v ∧
    ∀ b ∈ later, ¬b.Touches counts kind n

theorem Latest.append (h : Latest counts kind n actions v) {later : List Action}
    (hlater : ∀ b ∈ later, ¬b.Touches counts kind n) :
    Latest counts kind n (actions ++ later) v := by
  obtain ⟨past, a, rest, rfl, ha, hrest⟩ := h
  refine ⟨past, a, rest ++ later, by simp, ha, fun b hb => ?_⟩
  exact (List.mem_append.mp hb).elim (hrest b) (hlater b)

namespace Emulator

variable {d : Emulator}

theorem pin_act_of_not_touches (h : ¬a.Touches d.counts kind n) :
    (d.act a).pin kind n = d.pin kind n := by
  have heffect := d.act_effect a
  generalize d.act a = d' at heffect
  cases heffect with
  | none => rfl
  | @store k i v hstores =>
    rw [pin_setPin, if_neg]
    rintro ⟨⟩
    exact h (.inl ⟨v, hstores⟩)
  | @forget i hforgets =>
    rw [pin_forgetClick, if_neg]
    rintro ⟨⟩
    exact h (.inr hforgets)
  | push => rfl
  | pop => exact pin_setQueue ..

/-- What holds of initial values, of what pins hold and of what an action stores holds of what pins
hold afterwards. -/
theorem forall_pin_act {P : HostValue → Prop} (hinitial : ∀ kind : PinKind, P kind.initial)
    (h : ∀ kind n, P (d.pin kind n)) (hstores : ∀ kind n v, a.Stores d.counts kind n v → P v)
    (kind : PinKind) (n : Nat) : P ((d.act a).pin kind n) := by
  have heffect := d.act_effect a
  generalize d.act a = d' at heffect
  cases heffect with
  | none | push => exact h kind n
  | store hv =>
    rw [pin_setPin]
    split
    · exact hstores _ _ _ hv
    · exact h kind n
  | forget =>
    rw [pin_forgetClick]
    split
    · exact hinitial kind
    · exact h kind n
  | pop =>
    rw [pin_setQueue]
    exact h kind n

theorem pin_run_of_not_touches (h : ∀ a ∈ actions, ¬a.Touches d.counts kind n) :
    (d.run actions).pin kind n = d.pin kind n := by
  induction actions generalizing d with
  | nil => rfl
  | cons a actions ih =>
    obtain ⟨ha, h⟩ := List.forall_mem_cons.mp h
    calc (d.run (a :: actions)).pin kind n
      _ = (d.act a).pin kind n := ih (by rwa [counts_act])
      _ = d.pin kind n := pin_act_of_not_touches ha

theorem pin_run_eq (h : Latest d.counts kind n actions v) : (d.run actions).pin kind n = v := by
  obtain ⟨past, a, later, rfl, ha, hlater⟩ := h
  have hcounts : (d.run past).counts = d.counts := counts_run
  rw [← hcounts] at ha hlater
  rw [run_append, run_cons, pin_run_of_not_touches (by rwa [counts_act]), act_of_stores ha,
    pin_setPin, if_pos rfl]

/-- The induction is on the actions from the last one back: one that touches the pin without a value
to show for it has asked for a click. -/
theorem pin_run_eq_initial (hd : d.pin kind n = kind.initial)
    (h : ∀ v, ¬Latest d.counts kind n actions v) : (d.run actions).pin kind n = kind.initial := by
  induction actions using List.reverseRecOn with
  | nil => exact hd
  | append_singleton actions a ih =>
    have hcounts : (d.run actions).counts = d.counts := counts_run
    rw [run_append, run_cons, run_nil]
    by_cases htouches : a.Touches d.counts kind n
    · obtain ⟨v, hstores⟩ | hforgets := htouches
      · exact absurd ⟨actions, a, [], rfl, hstores, by simp⟩ (h v)
      · rw [← hcounts] at hforgets
        obtain ⟨rfl, hact⟩ := act_of_forgets hforgets
        rw [hact, pin_forgetClick, if_pos rfl]
    · have hlater : ∀ b ∈ [a], ¬b.Touches d.counts kind n := by simpa using htouches
      rw [pin_act_of_not_touches (hcounts ▸ htouches)]
      exact ih fun v hlatest => h v (hlatest.append hlater)

/-! ## Devices that start afresh -/

/-- An input holds what the user interface set it to last. -/
theorem input_eq (hkind : kind = .digitalIn ∨ kind = .analogIn) {past later : List Action}
    (hlater : ∀ w, .setPin kind n w ∉ later) :
    (d.run (past ++ .setPin kind n v :: later)).pin kind n = v := by
  apply pin_run_eq
  refine ⟨past, .setPin kind n v, later, rfl, .setPin, fun b hb htouches => ?_⟩
  obtain ⟨w, rfl⟩ := (Action.touches_input_iff hkind).mp htouches
  exact hlater w hb

theorem input_eq_initial (hkind : kind = .digitalIn ∨ kind = .analogIn)
    (h : ∀ v, .setPin kind n v ∉ actions) :
    (({ counts } : Emulator).run actions).pin kind n = kind.initial := by
  apply pin_run_eq_initial rfl
  rintro v ⟨past, a, later, rfl, hstores, -⟩
  obtain rfl := (Action.stores_input_iff hkind).mp hstores
  exact h v (by simp)

theorem pin_apply_input (hkind : kind = .digitalIn ∨ kind = .analogIn) (r : Request) :
    (d.apply r).2.pin kind n = d.pin kind n := by
  apply pin_act_of_not_touches (a := .request r)
  intro htouches
  obtain ⟨v, ⟨⟩⟩ := (Action.touches_input_iff hkind).mp htouches

theorem truthy_button_iff :
    ((({ counts } : Emulator).run actions).pin .button n).truthy = true ↔
      ∃ v, Latest counts .button n actions v ∧ v.truthy = true := by
  constructor
  · intro htrue
    by_contra hnone
    have hbutton : (({ counts } : Emulator).run actions).pin .button n =
        PinKind.button.initial := by
      apply pin_run_eq_initial rfl
      intro v hv
      have heq : (({ counts } : Emulator).run actions).pin .button n = v := pin_run_eq hv
      exact hnone ⟨v, hv, heq ▸ htrue⟩
    rw [hbutton] at htrue
    cases htrue
  · rintro ⟨v, hv, htrue⟩
    have heq : (({ counts } : Emulator).run actions).pin .button n = v := pin_run_eq hv
    rwa [heq]

theorem apply_takeClick_answer {r : Request} (hr : Reaches d.counts r .button n) :
    (d.apply r).1 = .ok (if (d.pin .button n).truthy then "#t" else "()") := by
  rw [apply_takeClick hr]
  cases (d.pin .button n).truthy <;> rfl

/-- Requests read an input as the user interface set it last, and never change it. An output holds
what was last written to it or set on it. A button is reported just if it was set to a true value
since it was last asked for, and only once. -/
theorem pins_follow_history (counts : PinCounts) (actions : List Action) :
    let d := ({ counts } : Emulator).run actions
    (∀ kind n, kind = .digitalIn ∨ kind = .analogIn →
      (∀ r, Reaches counts r kind n →
        (∀ past v later, actions = past ++ .setPin kind n v :: later →
          (∀ w, .setPin kind n w ∉ later) → (d.apply r).1 = .ok v.wire) ∧
        ((∀ v, .setPin kind n v ∉ actions) → (d.apply r).1 = .ok kind.initial.wire)) ∧
      ∀ r, (d.apply r).2.pin kind n = d.pin kind n) ∧
    (PinKind.digitalIn.initial.wire = "()" ∧ PinKind.analogIn.initial.wire = "0") ∧
    (∀ kind n, kind = .digitalOut ∨ kind = .analogOut →
      (∀ v, Latest counts kind n actions v → d.pin kind n = v) ∧
      ((∀ v, ¬Latest counts kind n actions v) → d.pin kind n = kind.initial)) ∧
    ∀ n r, Reaches counts r .button n →
      ((d.apply r).1 = .ok "#t" ↔ ∃ v, Latest counts .button n actions v ∧ v.truthy = true) ∧
      ((d.apply r).1 = .ok "#t" ∨ (d.apply r).1 = .ok "()") ∧
      ∀ r', Reaches counts r' .button n → ((d.apply r).2.apply r').1 = .ok "()" := by
  intro d
  have hcounts : d.counts = counts := counts_run
  refine ⟨fun kind n hkind => ⟨fun r hr => ⟨?_, fun hnever => ?_⟩, pin_apply_input hkind⟩,
    ⟨by decide +kernel, by decide +kernel⟩,
    fun kind n _ => ⟨fun v hv => pin_run_eq (d := { counts }) hv, ?_⟩, fun n r hr => ?_⟩
  · rintro past v later rfl hlater
    rw [apply_read hkind (hcounts ▸ hr), input_eq hkind hlater]
  · rw [apply_read hkind (hcounts ▸ hr), input_eq_initial hkind hnever]
  · exact pin_run_eq_initial (d := { counts }) rfl
  · rw [← hcounts] at hr
    have hanswer := apply_takeClick_answer hr
    refine ⟨?_, ?_, fun r' hr' => ?_⟩
    · rw [hanswer, ← truthy_button_iff]
      change _ ↔ (d.pin .button n).truthy = true
      cases (d.pin .button n).truthy <;> simp
    · rw [hanswer]
      cases (d.pin .button n).truthy <;> simp
    · have hforgotten : (d.apply r).2 = d.forgetClick n := by rw [apply_takeClick hr]
      rw [hforgotten, apply_takeClick_answer (hcounts ▸ hr'), pin_forgetClick, if_pos rfl]
      rfl

/-- A digital output keeps what was written to it while other pins are in use, and a click is
reported once. -/
theorem pins_follow_history_mixed :
    let actions : List Action := [.setPin .digitalIn 1 (.symbol "017"),
      .request ⟨"dwrite", ["+1", "0x5"]⟩, .request ⟨"awrite", ["1", "loud"]⟩, .click 0]
    let d := ({} : Emulator).run actions
    (d.apply ⟨"dread", ["1"]⟩).1 = .ok "17" ∧ (d.apply ⟨"aread", ["0"]⟩).1 = .ok "0" ∧
    d.pin .digitalOut 1 = .bool true ∧ (d.apply ⟨"bclicked", ["0"]⟩).1 = .ok "#t" ∧
    ((d.apply ⟨"bclicked", ["0"]⟩).2.apply ⟨"bclicked", ["0"]⟩).1 = .ok "()" := by
  intro actions d
  obtain ⟨hinput, ⟨-, hzero⟩, houtput, hbutton⟩ := pins_follow_history {} actions
  have hdread : Reaches {} ⟨"dread", ["1"]⟩ .digitalIn 1 :=
    ⟨rfl, "1", rfl, by decide, by decide⟩
  have haread : Reaches {} ⟨"aread", ["0"]⟩ .analogIn 0 :=
    ⟨rfl, "0", rfl, by decide, by decide⟩
  have hdwrite : Reaches {} ⟨"dwrite", ["+1", "0x5"]⟩ .digitalOut 1 :=
    ⟨rfl, "+1", rfl, by decide, by decide⟩
  have hbclicked : Reaches {} ⟨"bclicked", ["0"]⟩ .button 0 :=
    ⟨rfl, "0", rfl, by decide, by decide⟩
  have hwritten : Latest {} .digitalOut 1 actions (.bool (HostValue.ofWire "0x5").truthy) := by
    refine ⟨actions.take 1, _, actions.drop 2, rfl, .digitalWrite hdwrite rfl, ?_⟩
    simp only [actions, List.drop_succ_cons, List.drop_zero, List.forall_mem_cons,
      List.not_mem_nil, false_imp_iff, implies_true, and_true]
    refine ⟨fun htouches => ?_, ?_⟩
    · exact absurd (Action.reaches_of_touches htouches).1 (by decide)
    · rintro (⟨v, h⟩ | h) <;> cases h
  have hclicked : Latest {} .button 0 actions (.bool true) :=
    ⟨actions.take 3, _, [], rfl, .click, by simp⟩
  refine ⟨?_, ?_, ?_, ?_, (hbutton 0 _ hbclicked).2.2 _ hbclicked⟩
  · have hread := ((hinput .digitalIn 1 (.inl rfl)).1 _ hdread).1 [] (.symbol "017") _ rfl
      (by simp)
    rwa [show (HostValue.symbol "017").wire = "17" by decide +kernel] at hread
  · have hread := ((hinput .analogIn 0 (.inr rfl)).1 _ haread).2 (by simp [actions])
    rwa [hzero] at hread
  · rw [(houtput .digitalOut 1 (.inl rfl)).1 _ hwritten]
    decide +kernel
  · exact (hbutton 0 _ hbclicked).1.mpr ⟨_, hclicked, rfl⟩

end Emulator
end LispBridge.Device
