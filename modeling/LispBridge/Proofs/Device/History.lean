import LispBridge.Proofs.Device.Requests

/-!
# What is done to a device

A device changes by requests of scripts and by the user interface, which stores on pins, clicks
buttons and adds values to queues. Each of these actions stores on one pin, forgets one click, adds
to one queue, takes from one queue, or changes nothing: `Emulator.act_effect`. That an action does
one of them can be read off it and the number of pins alone (`Action.Stores`, `Action.Forgets`,
`Action.Pushes`, `Action.Pops`).
-/

namespace LispBridge.Device

inductive Action
  | request (r : Request)
  | setPin (kind : PinKind) (n : Nat) (v : HostValue)
  | click (button : Nat)
  | pushEvent (event : String) (v : HostValue)
  deriving DecidableEq, Repr

namespace Action

/-- The action stores a value on a pin. -/
inductive Stores (counts : PinCounts) : Action → PinKind → Nat → HostValue → Prop
  | setPin {kind n v} : Stores counts (.setPin kind n v) kind n v
  | click {n} : Stores counts (.click n) .button n (.bool true)
  | digitalWrite {r n s} : Reaches counts r .digitalOut n → r.args[1]? = some s →
      Stores counts (.request r) .digitalOut n (.bool (HostValue.ofWire s).truthy)
  | analogWrite {r n s x} : Reaches counts r .analogOut n → r.args[1]? = some s →
      HostValue.ofWire s = .number x → Stores counts (.request r) .analogOut n (.number x)

/-- The action asks for a button's click, which is forgotten by that. -/
inductive Forgets (counts : PinCounts) : Action → PinKind → Nat → Prop
  | takeClick {r n} : Reaches counts r .button n → Forgets counts (.request r) .button n

/-- The action adds a value to an event's queue. -/
inductive Pushes : Action → String → HostValue → Prop
  | direct {event v} : Pushes (.pushEvent event v) event v
  | request {r event s} : r.op = "push_event" → r.args[0]? = some event → r.args[1]? = some s →
      Pushes (.request r) event (HostValue.ofWire s)

/-- The action asks for the oldest value of an event's queue. -/
inductive Pops : Action → String → Prop
  | request {r event} : r.op = "pop_event" → r.args[0]? = some event → Pops (.request r) event

end Action

namespace Emulator

/-- Does an action to a device. -/
def act (d : Emulator) : Action → Emulator
  | .request r => (d.apply r).2
  | .setPin kind n v => d.setPin kind n v
  | .click button => d.click button
  | .pushEvent event v => d.pushEvent event v

def run (d : Emulator) (actions : List Action) : Emulator := actions.foldl act d

/-- What an action can do to a device. -/
inductive Effect (d : Emulator) (a : Action) : Emulator → Prop
  | none : Effect d a d
  | store {kind n v} : a.Stores d.counts kind n v → Effect d a (d.setPin kind n v)
  | forget {n} : a.Forgets d.counts .button n → Effect d a (d.forgetClick n)
  | push {event v} : a.Pushes event v → Effect d a (d.pushEvent event v)
  | pop {event v rest} : a.Pops event → d.queue event = v :: rest →
      Effect d a (d.setQueue event rest)

variable {d : Emulator} {r : Request} {kind : PinKind} {n : Nat} {event : String} {v : HostValue}
  {rest : List HostValue} {a : Action}

/-! ## Runs -/

@[simp] theorem run_nil : d.run [] = d := rfl

@[simp] theorem run_cons {actions : List Action} :
    d.run (a :: actions) = (d.act a).run actions := rfl

@[simp] theorem run_append {actions later : List Action} :
    d.run (actions ++ later) = (d.run actions).run later := List.foldl_append

/-- The device after a list of requests. -/
def serve (d : Emulator) (requests : List String) : Emulator :=
  d.run (requests.map fun request => .request (.ofText request))

@[simp] theorem serve_append {requests later : List String} :
    d.serve (requests ++ later) = (d.serve requests).serve later := by
  simp [serve]

/-! ## Every action -/

theorem Served.effect {answer : String} {d' : Emulator} (h : d.Served r answer d') :
    d.Effect (.request r) d' := by
  cases h with
  | digitalWrite hr hs => exact .store (.digitalWrite hr hs)
  | analogWrite hr hs hx => exact .store (.analogWrite hr hs hx)
  | takeClick hr => exact .forget (.takeClick hr)
  | enqueue hop he hs => exact .push (.request hop he hs)
  | dequeueCons hop he hq => exact .pop (.request hop he) hq
  | read | hasEvent | dequeueNil | task | unknown => exact .none

/-- Every action changes one thing, or nothing. -/
theorem act_effect (d : Emulator) (a : Action) : d.Effect a (d.act a) := by
  cases a with
  | request r =>
    obtain ⟨-, hunchanged, hserved⟩ := d.serves_perform r
    rw [act, apply]
    cases h : ((perform r).on d).1 with
    | error e =>
      rw [hunchanged e h]
      exact .none
    | ok answer => exact (hserved answer h).effect
  | setPin => exact .store .setPin
  | click => exact .store .click
  | pushEvent => exact .push .direct

theorem act_of_stores (h : a.Stores d.counts kind n v) : d.act a = d.setPin kind n v := by
  cases h with
  | setPin | click => rfl
  | digitalWrite hr hs => rw [act, apply_digitalWrite hr hs]
  | analogWrite hr hs hx => rw [act, apply_analogWrite hr hs hx]

theorem act_of_forgets (h : a.Forgets d.counts kind n) :
    kind = .button ∧ d.act a = d.forgetClick n := by
  obtain ⟨hr⟩ := h
  rw [act, apply_takeClick hr]
  exact ⟨rfl, rfl⟩

theorem act_of_pushes (h : a.Pushes event v) : d.act a = d.pushEvent event v := by
  cases h with
  | direct => rfl
  | request hop he hs => rw [act, apply_enqueue hop he hs]

/-- The pins that a device has stay the same. -/
@[simp] theorem counts_act : (d.act a).counts = d.counts := by
  generalize hd : d.act a = d'
  have heffect := d.act_effect a
  rw [hd] at heffect
  cases heffect with
  | none | store | forget | push => rfl
  | pop => exact counts_setQueue

@[simp] theorem counts_run {actions : List Action} : (d.run actions).counts = d.counts := by
  induction actions generalizing d with
  | nil => rfl
  | cons a actions ih => rw [run_cons, ih, counts_act]

end Emulator
end LispBridge.Device
