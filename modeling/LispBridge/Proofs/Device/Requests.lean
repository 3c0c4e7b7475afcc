import LispBridge.Device.Emulator

/-!
# What a request comes to

A request makes demands by its operation (`demands`). The first that is not met is the fault of the
request, and the device has changed nothing by then; a request that meets them all is served as
`Emulator.Served` says. So it is for every operation (`Emulator.serves_perform`), and
`Emulator.apply_atomic` says what follows for the device: a request that fails leaves it as it is,
one that is served changes one pin, one queue, or nothing.
-/

namespace LispBridge.Device

/-- The request is a valid one for a pin: it has the operation of the pin's kind, and its first
argument is the number of a pin that the device has. -/
def Reaches (counts : PinCounts) (r : Request) (kind : PinKind) (n : Nat) : Prop :=
  r.op = kind.operation ∧ ∃ raw, r.args[0]? = some raw ∧
    Chars.unsigned? Chars.bound32 raw.toList = some n ∧ n < counts.of kind

/-! ## Demands -/

/-- What a request may have to bring. -/
inductive Demand
  /-- An argument at an index. -/
  | argument (i : Nat)
  /-- A first argument that is a pin number. -/
  | pinNumber
  /-- A first argument that is the number of a pin that the device has. -/
  | pin (kind : PinKind)
  /-- A second argument that decodes to a number. -/
  | number
  deriving DecidableEq, Repr

/-- A request does not meet a demand, which is the fault given. -/
inductive Unmet (counts : PinCounts) (r : Request) : Demand → Fault → Prop
  | argument {i} : r.args[i]? = none → Unmet counts r (.argument i) (.missingArgument r.op (i + 1))
  | pinNumber {raw} : r.args[0]? = some raw →
      Chars.unsigned? Chars.bound32 raw.toList = none → Unmet counts r .pinNumber (.badPin r.op raw)
  | pin {kind raw n} : r.args[0]? = some raw →
      Chars.unsigned? Chars.bound32 raw.toList = some n → counts.of kind ≤ n →
      Unmet counts r (.pin kind) (.pinOutOfRange r.op n (counts.of kind))
  | number {raw} : r.args[1]? = some raw → (∀ x, HostValue.ofWire raw ≠ .number x) →
      Unmet counts r .number (.notANumber r.op raw)

/-- The fault is that of the first of the demands that the request does not meet. -/
inductive FirstUnmet (counts : PinCounts) (r : Request) : List Demand → Fault → Prop
  | here {x ds e} : Unmet counts r x e → FirstUnmet counts r (x :: ds) e
  | later {x ds e} : (∀ e', ¬Unmet counts r x e') → FirstUnmet counts r ds e →
      FirstUnmet counts r (x :: ds) e

/-- The demands of an operation on a pin. -/
def onPin (kind : PinKind) : List Demand := [.argument 0, .pinNumber, .pin kind]

/-- The demands of an operation, in the order in which the device looks at them. -/
def demands : String → List Demand
  | "dwrite" => onPin .digitalOut ++ [.argument 1]
  | "awrite" => onPin .analogOut ++ [.argument 1, .number]
  | "dread" => onPin .digitalIn
  | "aread" => onPin .analogIn
  | "bclicked" => onPin .button
  | "push_event" => [.argument 0, .argument 1]
  | "is_event" => [.argument 0]
  | "pop_event" => [.argument 0]
  | _ => []

section
variable {counts : PinCounts} {r : Request} {x : Demand} {ds ds' : List Demand} {e : Fault}

theorem not_firstUnmet_nil : ∀ e, ¬FirstUnmet counts r [] e := nofun

theorem firstUnmet_cons_iff : FirstUnmet counts r (x :: ds) e ↔
    Unmet counts r x e ∨ (∀ e', ¬Unmet counts r x e') ∧ FirstUnmet counts r ds e := by
  constructor
  · rintro (h | ⟨hmet, h⟩)
    · exact .inl h
    · exact .inr ⟨hmet, h⟩
  · rintro (h | ⟨hmet, h⟩)
    · exact .here h
    · exact .later hmet h

theorem firstUnmet_append_iff : FirstUnmet counts r (ds ++ ds') e ↔
    FirstUnmet counts r ds e ∨ (∀ e', ¬FirstUnmet counts r ds e') ∧ FirstUnmet counts r ds' e := by
  induction ds with
  | nil => simp [not_firstUnmet_nil]
  | cons x ds ih =>
    by_cases hmet : ∀ e', ¬Unmet counts r x e'
    · simp [firstUnmet_cons_iff, hmet, ih]
    · simp only [List.cons_append, firstUnmet_cons_iff, hmet, false_and, or_false]

theorem Unmet.unique {e' : Fault} (h : Unmet counts r x e) (h' : Unmet counts r x e') : e = e' := by
  cases h with
  | argument =>
    cases h'
    rfl
  | pinNumber hraw =>
    cases h' with | pinNumber hraw' =>
    cases hraw.symm.trans hraw'
    rfl
  | pin hraw hn =>
    cases h' with | pin hraw' hn' =>
    cases hraw.symm.trans hraw'
    cases hn.symm.trans hn'
    rfl
  | number hraw =>
    cases h' with | number hraw' =>
    cases hraw.symm.trans hraw'
    rfl

theorem FirstUnmet.unique {e' : Fault} (h : FirstUnmet counts r ds e)
    (h' : FirstUnmet counts r ds e') : e = e' := by
  induction h with
  | here h =>
    obtain h' | ⟨hmet, -⟩ := firstUnmet_cons_iff.mp h'
    · exact h.unique h'
    · exact absurd h (hmet _)
  | later hmet _ ih =>
    obtain h' | ⟨-, h'⟩ := firstUnmet_cons_iff.mp h'
    · exact absurd h' (hmet _)
    · exact ih h'

theorem FirstUnmet.error_eq_iff {α : Type} {e' : Fault} (h : FirstUnmet counts r ds e) :
    (.error e : Except Fault α) = .error e' ↔ FirstUnmet counts r ds e' := by
  rw [Except.error.injEq]
  refine ⟨?_, h.unique⟩
  rintro rfl
  exact h

/-! ### Demands that are met -/

theorem met_cons (hx : ∀ e, ¬Unmet counts r x e) (hds : ∀ e, ¬FirstUnmet counts r ds e) :
    ∀ e, ¬FirstUnmet counts r (x :: ds) e := by
  rintro e (h | ⟨-, h⟩)
  · exact hx e h
  · exact hds e h

theorem met_argument {i : Nat} {s : String} (h : r.args[i]? = some s) :
    ∀ e, ¬Unmet counts r (.argument i) e := by
  rintro _ ⟨hnone⟩
  cases h.symm.trans hnone

variable {raw : String} {n : Nat}

theorem met_pinNumber (hraw : r.args[0]? = some raw)
    (hn : Chars.unsigned? Chars.bound32 raw.toList = some n) :
    ∀ e, ¬Unmet counts r .pinNumber e := by
  intro e h
  cases h with | pinNumber hraw' hnone =>
  cases hraw.symm.trans hraw'
  cases hn.symm.trans hnone

theorem met_pin {kind : PinKind} (hraw : r.args[0]? = some raw)
    (hn : Chars.unsigned? Chars.bound32 raw.toList = some n) (hlt : n < counts.of kind) :
    ∀ e, ¬Unmet counts r (.pin kind) e := by
  intro e h
  cases h with | pin hraw' hn' hle =>
  cases hraw.symm.trans hraw'
  cases hn.symm.trans hn'
  exact Nat.not_le_of_lt hlt hle

theorem met_number {x : Binary64} (hraw : r.args[1]? = some raw)
    (hx : HostValue.ofWire raw = .number x) : ∀ e, ¬Unmet counts r .number e := by
  intro e h
  cases h with | number hraw' hnone =>
  cases hraw.symm.trans hraw'
  exact hnone x hx

end

namespace Emulator

/-! ## Changes -/

/-- Forgets the click of a button. -/
def forgetClick (d : Emulator) (button : Nat) : Emulator :=
  { d with pins := d.pins.erase (.button, button) }

/-- Lets the given values wait in an event's queue. -/
def setQueue (d : Emulator) (event : String) : List HostValue → Emulator
  | [] => { d with events := d.events.erase event }
  | v :: rest => { d with events := d.events.set event (v :: rest) }

/-- What a request that meets all demands is answered, and the device after it. -/
inductive Served (d : Emulator) (r : Request) : String → Emulator → Prop
  | digitalWrite {n s} : Reaches d.counts r .digitalOut n → r.args[1]? = some s →
      Served d r (HostValue.bool (HostValue.ofWire s).truthy).wire
        (d.setPin .digitalOut n (.bool (HostValue.ofWire s).truthy))
  | analogWrite {n s x} : Reaches d.counts r .analogOut n → r.args[1]? = some s →
      HostValue.ofWire s = .number x →
      Served d r (HostValue.number x).wire (d.setPin .analogOut n (.number x))
  | read {kind n} : kind = .digitalIn ∨ kind = .analogIn → Reaches d.counts r kind n →
      Served d r (d.pin kind n).wire d
  | takeClick {n} : Reaches d.counts r .button n →
      Served d r (HostValue.bool (d.pin .button n).truthy).wire (d.forgetClick n)
  | enqueue {event s} : r.op = "push_event" → r.args[0]? = some event → r.args[1]? = some s →
      Served d r trueText (d.pushEvent event (HostValue.ofWire s))
  | hasEvent {event} : r.op = "is_event" → r.args[0]? = some event →
      Served d r (HostValue.bool (0 < d.pending event)).wire d
  | dequeueNil {event} : r.op = "pop_event" → r.args[0]? = some event → d.queue event = [] →
      Served d r falseText d
  | dequeueCons {event v rest} : r.op = "pop_event" → r.args[0]? = some event →
      d.queue event = v :: rest → Served d r v.wire (d.setQueue event rest)
  | task : r.op = "task" → Served d r (minimalAnswer ("task " ++ " ".intercalate r.args)) d
  | unknown : r.op ∉ ["dwrite", "awrite", "dread", "aread", "bclicked", "push_event", "is_event",
      "pop_event", "task"] → Served d r falseText d

variable {d d' : Emulator} {r : Request} {kind : PinKind} {n : Nat} {event answer : String}
  {v : HostValue} {rest : List HostValue}

@[simp] theorem pin_setPin (k : PinKind) (i : Nat) :
    (d.setPin kind n v).pin k i = if (k, i) = (kind, n) then v else d.pin k i := by
  simp only [pin, setPin, Table.get?_set]
  split <;> rfl

@[simp] theorem pin_forgetClick (k : PinKind) (i : Nat) :
    (d.forgetClick n).pin k i = if (k, i) = (.button, n) then k.initial else d.pin k i := by
  simp only [pin, forgetClick, Table.get?_erase]
  split <;> rfl

@[simp] theorem pin_setQueue (k : PinKind) (i : Nat) :
    (d.setQueue event rest).pin k i = d.pin k i := by
  cases rest <;> rfl

@[simp] theorem get?_events_pushEvent (e : String) : (d.pushEvent event v).events.get? e =
    if e = event then some (d.queue event ++ [v]) else d.events.get? e :=
  Table.get?_set ..

@[simp] theorem get?_events_setQueue (e : String) : (d.setQueue event rest).events.get? e =
    if e = event then (if rest = [] then none else some rest) else d.events.get? e := by
  cases rest with
  | nil => exact Table.get?_erase ..
  | cons v rest => exact Table.get?_set ..

@[simp] theorem counts_setQueue : (d.setQueue event rest).counts = d.counts := by
  cases rest <;> rfl

@[simp] theorem pins_setQueue : (d.setQueue event rest).pins = d.pins := by
  cases rest <;> rfl

/-! ## Arguments -/

theorem arg_eq_ok_iff {s : String} {i : Nat} : arg r i = .ok s ↔ r.args[i]? = some s := by
  rw [arg]
  cases r.args[i]? <;> simp

theorem pinArg_eq_ok_iff (hop : r.op = kind.operation) :
    d.pinArg r kind = .ok n ↔ Reaches d.counts r kind n := by
  rw [pinArg]
  cases hraw : arg r 0 with
  | error e =>
    refine iff_of_false nofun ?_
    rintro ⟨-, raw, hraw', -⟩
    cases hraw.symm.trans (arg_eq_ok_iff.mpr hraw')
  | ok raw =>
    have hreaches : Reaches d.counts r kind n ↔
        Chars.unsigned? Chars.bound32 raw.toList = some n ∧ n < d.counts.of kind := by
      simp [Reaches, hop, arg_eq_ok_iff.mp hraw]
    rw [hreaches]
    simp only [bind, Except.bind]
    split
    · simp_all
    next i hi =>
      rw [hi, Option.some.injEq]
      split
      · next hlt =>
        rw [Except.ok.injEq]
        exact ⟨fun h => ⟨h, h ▸ hlt⟩, And.left⟩
      · next hle =>
        refine iff_of_false nofun ?_
        rintro ⟨rfl, hlt⟩
        exact hle hlt

theorem numberArg_eq_ok_iff {x : Binary64} : numberArg r = .ok x ↔
    ∃ s, r.args[1]? = some s ∧ HostValue.ofWire s = .number x := by
  rw [numberArg]
  cases hraw : arg r 1 with
  | error e =>
    refine iff_of_false nofun ?_
    rintro ⟨s, hs, -⟩
    cases hraw.symm.trans (arg_eq_ok_iff.mpr hs)
  | ok raw =>
    simp only [bind, Except.bind, arg_eq_ok_iff.mp hraw]
    split <;> simp_all

theorem arg_eq_error_iff {counts : PinCounts} {i : Nat} {e : Fault} :
    arg r i = .error e ↔ FirstUnmet counts r [.argument i] e := by
  rw [arg]
  cases hs : r.args[i]? with
  | none => exact FirstUnmet.error_eq_iff (.here (.argument hs))
  | some s => exact iff_of_false nofun (met_cons (met_argument hs) not_firstUnmet_nil e)

theorem pinArg_eq_error_iff {e : Fault} :
    d.pinArg r kind = .error e ↔ FirstUnmet d.counts r (onPin kind) e := by
  rw [pinArg]
  cases hraw : r.args[0]? with
  | none =>
    rw [arg, hraw]
    exact FirstUnmet.error_eq_iff (.here (.argument hraw))
  | some raw =>
    rw [arg_eq_ok_iff.mpr hraw]
    simp only [bind, Except.bind]
    have harg : ∀ e, ¬Unmet d.counts r (.argument 0) e := met_argument hraw
    cases hn : Chars.unsigned? Chars.bound32 raw.toList with
    | none => exact FirstUnmet.error_eq_iff (.later harg (.here (.pinNumber hraw hn)))
    | some n =>
      have hnumber : ∀ e, ¬Unmet d.counts r .pinNumber e := met_pinNumber hraw hn
      by_cases hlt : n < d.counts.of kind
      · have hpin := met_pin hraw hn hlt
        simp only [if_pos hlt]
        refine iff_of_false nofun ?_
        exact met_cons harg (met_cons hnumber (met_cons hpin not_firstUnmet_nil)) e
      · have hpin : Unmet d.counts r (.pin kind) _ := .pin hraw hn (Nat.le_of_not_lt hlt)
        simp only [if_neg hlt]
        exact FirstUnmet.error_eq_iff (.later harg (.later hnumber (.here hpin)))

theorem numberArg_eq_error_iff {counts : PinCounts} {e : Fault} :
    numberArg r = .error e ↔ FirstUnmet counts r [.argument 1, .number] e := by
  rw [numberArg]
  cases hraw : r.args[1]? with
  | none =>
    rw [arg, hraw]
    exact FirstUnmet.error_eq_iff (.here (.argument hraw))
  | some raw =>
    rw [arg_eq_ok_iff.mpr hraw]
    simp only [bind, Except.bind]
    have harg : ∀ e, ¬Unmet counts r (.argument 1) e := met_argument hraw
    split
    · next hx =>
      have hnumber : ∀ e, ¬Unmet counts r .number e := met_number hraw hx
      exact iff_of_false nofun (met_cons harg (met_cons hnumber not_firstUnmet_nil) e)
    · next hnone => exact FirstUnmet.error_eq_iff (.later harg (.here (.number hraw hnone)))

/-! ## Work -/

section
variable {α β : Type}

@[simp] theorem Work.on_pure (a : α) : (pure a : Work α).on d = (.ok a, d) := rfl

@[simp] theorem Work.on_map_get (f : Emulator → β) :
    (f <$> get : Work β).on d = (.ok (f d), d) := rfl

@[simp] theorem Work.on_map_modify (f : PUnit → β) (g : Emulator → Emulator) :
    (f <$> modify g : Work β).on d = (.ok (f ⟨⟩), g d) := rfl

@[simp] theorem Work.on_get_bind (f : Emulator → Work β) : (get >>= f).on d = (f d).on d := rfl

@[simp] theorem Work.on_ok_bind (a : α) (f : α → Work β) :
    (liftM (.ok a : Except Fault α) >>= f).on d = (f a).on d := rfl

end

/-! ## Requests that succeed -/

theorem apply_digitalWrite {s : String} (hr : Reaches d.counts r .digitalOut n)
    (hs : r.args[1]? = some s) : d.apply r =
      (.ok (HostValue.bool (HostValue.ofWire s).truthy).wire,
        d.setPin .digitalOut n (.bool (HostValue.ofWire s).truthy)) := by
  have hop : r.op = "dwrite" := hr.1
  simp [apply, perform, hop, digitalWrite, (pinArg_eq_ok_iff hr.1).mpr hr, arg_eq_ok_iff.mpr hs]

theorem apply_analogWrite {s : String} {x : Binary64} (hr : Reaches d.counts r .analogOut n)
    (hs : r.args[1]? = some s) (hx : HostValue.ofWire s = .number x) : d.apply r =
      (.ok (HostValue.number x).wire, d.setPin .analogOut n (.number x)) := by
  have hop : r.op = "awrite" := hr.1
  simp [apply, perform, hop, analogWrite, (pinArg_eq_ok_iff hr.1).mpr hr,
    numberArg_eq_ok_iff.mpr ⟨s, hs, hx⟩]

theorem apply_read (hkind : kind = .digitalIn ∨ kind = .analogIn)
    (hr : Reaches d.counts r kind n) : d.apply r = (.ok (d.pin kind n).wire, d) := by
  have hop : r.op = kind.operation := hr.1
  have hperform : perform r = readPin r kind := by
    obtain rfl | rfl := hkind <;> simp [perform, hop, PinKind.operation]
  simp [apply, hperform, readPin, (pinArg_eq_ok_iff hop).mpr hr]

theorem apply_takeClick (hr : Reaches d.counts r .button n) : d.apply r =
    (.ok (HostValue.bool (d.pin .button n).truthy).wire, d.forgetClick n) := by
  have hop : r.op = "bclicked" := hr.1
  simp [apply, perform, hop, takeClick, (pinArg_eq_ok_iff hr.1).mpr hr, forgetClick]

theorem apply_enqueue {s : String} (hop : r.op = "push_event") (he : r.args[0]? = some event)
    (hs : r.args[1]? = some s) :
    d.apply r = (.ok trueText, d.pushEvent event (HostValue.ofWire s)) := by
  simp [apply, perform, hop, enqueue, arg_eq_ok_iff.mpr he, arg_eq_ok_iff.mpr hs]

theorem apply_hasEvent (hop : r.op = "is_event") (he : r.args[0]? = some event) :
    d.apply r = (.ok (HostValue.bool (0 < d.pending event)).wire, d) := by
  simp [apply, perform, hop, hasEvent, arg_eq_ok_iff.mpr he]

theorem apply_dequeue_nil (hop : r.op = "pop_event") (he : r.args[0]? = some event)
    (hq : d.queue event = []) : d.apply r = (.ok falseText, d) := by
  simp [apply, perform, hop, dequeue, arg_eq_ok_iff.mpr he, hq]

theorem apply_dequeue_cons (hop : r.op = "pop_event") (he : r.args[0]? = some event)
    (hq : d.queue event = v :: rest) : d.apply r = (.ok v.wire, d.setQueue event rest) := by
  cases rest <;> simp [apply, perform, hop, dequeue, arg_eq_ok_iff.mpr he, hq, setQueue]

/-! ## Every request -/

/-- Work for a request that makes demands: it breaks off with the first that is not met, and has
changed nothing by then, or it serves the request. -/
structure Serves (d : Emulator) (r : Request) (ds : List Demand) (w : Work String) : Prop where
  error_iff : ∀ e, (w.on d).1 = .error e ↔ FirstUnmet d.counts r ds e
  unchanged : ∀ e, (w.on d).1 = .error e → (w.on d).2 = d
  served : ∀ answer, (w.on d).1 = .ok answer → d.Served r answer (w.on d).2

namespace Serves

variable {α : Type} {w : Work String} {ds ds' : List Demand}

/-- Work that meets no fault any more. -/
theorem done (h : w.on d = (.ok answer, d')) (hserved : d.Served r answer d') :
    d.Serves r [] w := by
  refine ⟨fun e => ?_, fun e he => ?_, fun _ hok => ?_⟩ <;> rw [h] at *
  · exact iff_of_false nofun (not_firstUnmet_nil e)
  · cases he
  · cases hok
    exact hserved

theorem get_bind {f : Emulator → Work String} (h : d.Serves r ds (f d)) :
    d.Serves r ds (get >>= f) := ⟨h.error_iff, h.unchanged, h.served⟩

/-- A check looks at its demands before the rest of the work does. -/
theorem check_bind {x : Except Fault α} {f : α → Work String}
    (hx : ∀ e, x = .error e ↔ FirstUnmet d.counts r ds e)
    (hf : ∀ a, x = .ok a → d.Serves r ds' (f a)) : d.Serves r (ds ++ ds') (liftM x >>= f) := by
  cases x with
  | error e =>
    have hfirst : FirstUnmet d.counts r (ds ++ ds') e :=
      firstUnmet_append_iff.mpr (.inl ((hx e).mp rfl))
    exact ⟨fun _ => hfirst.error_eq_iff, fun _ _ => rfl, nofun⟩
  | ok a =>
    have hmet : ∀ e, ¬FirstUnmet d.counts r ds e := fun e h => nomatch (hx e).mpr h
    obtain ⟨herror, hunchanged, hserved⟩ := hf a rfl
    refine ⟨fun e => (herror e).trans ?_, hunchanged, hserved⟩
    rw [firstUnmet_append_iff]
    exact ⟨fun h => .inr ⟨hmet, h⟩, fun h => (h.resolve_left (hmet e)).2⟩

theorem arg_bind {i : Nat} {f : String → Work String}
    (h : ∀ s, r.args[i]? = some s → d.Serves r ds (f s)) :
    d.Serves r (.argument i :: ds) (liftM (arg r i) >>= f) :=
  check_bind (fun _ => arg_eq_error_iff) fun s hs => h s (arg_eq_ok_iff.mp hs)

theorem pinArg_bind (hop : r.op = kind.operation) {f : Nat → Work String}
    (h : ∀ n, Reaches d.counts r kind n → d.Serves r ds (f n)) :
    d.Serves r (onPin kind ++ ds) (get >>= fun d => liftM (d.pinArg r kind) >>= f) :=
  .get_bind (.check_bind (fun _ => pinArg_eq_error_iff) fun n hn =>
    h n ((pinArg_eq_ok_iff hop).mp hn))

end Serves

theorem serves_digitalWrite (hop : r.op = "dwrite") :
    d.Serves r (onPin .digitalOut ++ [.argument 1]) (digitalWrite r) := by
  refine .pinArg_bind hop fun n hn => .arg_bind fun s hs => ?_
  exact .done rfl (.digitalWrite hn hs)

theorem serves_analogWrite (hop : r.op = "awrite") :
    d.Serves r (onPin .analogOut ++ [.argument 1, .number]) (analogWrite r) := by
  refine .pinArg_bind hop fun n hn => .check_bind (fun _ => numberArg_eq_error_iff) fun x hx => ?_
  obtain ⟨s, hs, hx⟩ := numberArg_eq_ok_iff.mp hx
  exact .done rfl (.analogWrite hn hs hx)

theorem serves_readPin (hkind : kind = .digitalIn ∨ kind = .analogIn)
    (hop : r.op = kind.operation) : d.Serves r (onPin kind) (readPin r kind) := by
  rw [← List.append_nil (onPin kind)]
  exact .pinArg_bind hop fun n hn => .done rfl (.read hkind hn)

theorem serves_takeClick (hop : r.op = "bclicked") : d.Serves r (onPin .button) (takeClick r) := by
  rw [← List.append_nil (onPin .button)]
  exact .pinArg_bind hop fun n hn => .done rfl (.takeClick hn)

theorem serves_enqueue (hop : r.op = "push_event") :
    d.Serves r [.argument 0, .argument 1] (enqueue r) := by
  refine .arg_bind fun event he => .arg_bind fun s hs => ?_
  exact .done rfl (.enqueue hop he hs)

theorem serves_hasEvent (hop : r.op = "is_event") : d.Serves r [.argument 0] (hasEvent r) := by
  refine .arg_bind fun event he => ?_
  exact .done rfl (.hasEvent hop he)

theorem serves_dequeue (hop : r.op = "pop_event") : d.Serves r [.argument 0] (dequeue r) := by
  refine .arg_bind fun event he => .get_bind ?_
  cases hq : d.queue event with
  | nil => exact .done rfl (.dequeueNil hop he hq)
  | cons v rest =>
    -- the queue is dropped with its last value
    cases rest <;> exact .done rfl (.dequeueCons hop he hq)

/-- Every request is served once it meets the demands of its operation. -/
theorem serves_perform (d : Emulator) (r : Request) : d.Serves r (demands r.op) (perform r) := by
  rw [perform]
  split
  · next hop =>
    rw [hop]
    exact serves_digitalWrite hop
  · next hop =>
    rw [hop]
    exact serves_analogWrite hop
  · next hop =>
    rw [hop]
    exact serves_readPin (.inl rfl) hop
  · next hop =>
    rw [hop]
    exact serves_readPin (.inr rfl) hop
  · next hop =>
    rw [hop]
    exact serves_takeClick hop
  · next hop =>
    rw [hop]
    exact serves_enqueue hop
  · next hop =>
    rw [hop]
    exact serves_hasEvent hop
  · next hop =>
    rw [hop]
    exact serves_dequeue hop
  · next hop =>
    rw [hop]
    exact .done rfl (.task hop)
  · next hdwrite hawrite hdread haread hbclicked hpush his hpop htask =>
    have hdemands : demands r.op = [] := by rw [demands] <;> assumption
    rw [hdemands]
    refine .done rfl (.unknown ?_)
    simp only [List.mem_cons, List.not_mem_nil, or_false, not_or]
    exact ⟨hdwrite, hawrite, hdread, haread, hbclicked, hpush, his, hpop, htask⟩

/-! ## The device after a request -/

/-- Two devices that differ in one pin at most. -/
structure AgreeOffPin (d d' : Emulator) (kind : PinKind) (n : Nat) : Prop where
  counts : d'.counts = d.counts
  events : d'.events = d.events
  pins : ∀ k i, (k, i) ≠ (kind, n) → d'.pins.get? (k, i) = d.pins.get? (k, i)

/-- Two devices that differ in one queue at most. -/
structure AgreeOffQueue (d d' : Emulator) (event : String) : Prop where
  counts : d'.counts = d.counts
  pins : d'.pins = d.pins
  events : ∀ e ≠ event, d'.events.get? e = d.events.get? e

theorem agreeOffPin_setPin : d.AgreeOffPin (d.setPin kind n v) kind n :=
  ⟨rfl, rfl, fun _ _ hne => (Table.get?_set ..).trans (if_neg hne)⟩

theorem agreeOffPin_forgetClick : d.AgreeOffPin (d.forgetClick n) .button n :=
  ⟨rfl, rfl, fun _ _ hne => (Table.get?_erase ..).trans (if_neg hne)⟩

theorem agreeOffQueue_pushEvent : d.AgreeOffQueue (d.pushEvent event v) event :=
  ⟨rfl, rfl, fun e hne => (get?_events_pushEvent e).trans (if_neg hne)⟩

theorem agreeOffQueue_setQueue : d.AgreeOffQueue (d.setQueue event rest) event :=
  ⟨counts_setQueue, pins_setQueue, fun e hne => (get?_events_setQueue e).trans (if_neg hne)⟩

/-- A request fails just if it does not meet all demands of its operation, with the fault of the
first that it does not meet. One that fails leaves the device as it is. One that is served leaves
all but the pin that it names as they are, if it sets an output or asks for a click, and all but the
queue that it names, if it adds to one or takes from one; all others leave the device as it is. -/
theorem apply_atomic (d : Emulator) (r : Request) :
    (∀ e, (d.apply r).1 = .error e ↔ FirstUnmet d.counts r (demands r.op) e) ∧
    (∀ e, (d.apply r).1 = .error e → (d.apply r).2 = d) ∧
    ∀ answer, (d.apply r).1 = .ok answer →
      (∃ kind ∈ [PinKind.digitalOut, .analogOut, .button], ∃ n, Reaches d.counts r kind n ∧
        d.AgreeOffPin (d.apply r).2 kind n) ∨
      (∃ event, r.op ∈ ["push_event", "pop_event"] ∧ r.args[0]? = some event ∧
        d.AgreeOffQueue (d.apply r).2 event) ∨
      r.op ∉ ["dwrite", "awrite", "bclicked", "push_event", "pop_event"] ∧ (d.apply r).2 = d := by
  obtain ⟨herror, hunchanged, hserved⟩ := d.serves_perform r
  refine ⟨herror, hunchanged, fun answer hok => ?_⟩
  have hserved' : d.Served r answer (d.apply r).2 := hserved answer hok
  generalize (d.apply r).2 = d' at hserved' ⊢
  cases hserved' with
  | digitalWrite hr | analogWrite hr => exact .inl ⟨_, by simp, _, hr, agreeOffPin_setPin⟩
  | takeClick hr => exact .inl ⟨_, by simp, _, hr, agreeOffPin_forgetClick⟩
  | enqueue hop he => exact .inr (.inl ⟨_, by simp [hop], he, agreeOffQueue_pushEvent⟩)
  | dequeueCons hop he => exact .inr (.inl ⟨_, by simp [hop], he, agreeOffQueue_setQueue⟩)
  | dequeueNil hop he => exact .inr (.inl ⟨_, by simp [hop], he, rfl, rfl, fun _ _ => rfl⟩)
  | @read kind _ hkind hr =>
    have hop : r.op = kind.operation := hr.1
    refine .inr (.inr ⟨?_, rfl⟩)
    obtain rfl | rfl := hkind <;> simp [hop, PinKind.operation]
  | hasEvent hop | task hop => exact .inr (.inr ⟨by simp [hop], rfl⟩)
  | unknown hop =>
    exact .inr (.inr ⟨fun hmem => hop (List.Sublist.subset (by decide) hmem), rfl⟩)

/-- An analog value that is no number, an event that waits, and an operation without effects. -/
theorem apply_atomic_waiting :
    let d := ({} : Emulator).pushEvent "e" (.bool true)
    let awrite : Request := ⟨"awrite", ["+2", "#t"]⟩
    let pop : Request := ⟨"pop_event", ["e"]⟩
    let task : Request := ⟨"task", ["e"]⟩
    FirstUnmet d.counts awrite (demands "awrite") (.notANumber "awrite" "#t") ∧
      (d.apply awrite).2 = d ∧ d.AgreeOffQueue (d.apply pop).2 "e" ∧ (d.apply task).2 = d := by
  intro d awrite pop task
  have hread : Chars.unsigned? Chars.bound32 "+2".toList = some 2 := by decide +kernel
  have hpin : ∀ e, ¬Unmet d.counts awrite (.pin .analogOut) e := met_pin rfl hread (by decide)
  have hnumber : ∀ x, HostValue.ofWire "#t" ≠ .number x := by
    rw [show HostValue.ofWire "#t" = .bool true by decide +kernel]
    nofun
  have hunmet : FirstUnmet d.counts awrite (demands "awrite") (.notANumber "awrite" "#t") :=
    .later (met_argument rfl) (.later (met_pinNumber rfl hread) (.later hpin
      (.later (met_argument rfl) (.here (.number rfl hnumber)))))
  have hpop : (d.apply pop).1 = .ok "#t" := by rw [apply_dequeue_cons rfl rfl rfl]; rfl
  obtain ⟨hfault, hunchanged, -⟩ := d.apply_atomic awrite
  refine ⟨hunmet, hunchanged _ ((hfault _).mpr hunmet), ?_, ?_⟩
  · obtain ⟨kind, -, n, ⟨hop, -⟩, -⟩ | ⟨event, -, he, hagree⟩ | ⟨hop, -⟩ :=
      (d.apply_atomic pop).2.2 _ hpop
    · cases kind <;> exact absurd hop (by decide)
    · cases he
      exact hagree
    · exact absurd hop (by decide)
  · obtain ⟨kind, -, n, ⟨hop, -⟩, -⟩ | ⟨event, hop, -⟩ | ⟨-, hsame⟩ :=
      (d.apply_atomic task).2.2 _ rfl
    · cases kind <;> exact absurd hop (by decide)
    · exact absurd hop (by decide)
    · exact hsame

end Emulator
end LispBridge.Device
