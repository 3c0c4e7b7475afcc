import LispBridge.Chars.Numeral
import LispBridge.Device.Pin
import LispBridge.Primitive
import LispBridge.Request
import LispBridge.Table

/-!
An emulated device.

The device keeps a value for each pin that was stored on and a queue of values for each event with
any. Scripts reach it by requests, the user interface directly. A request that fails changes
nothing, and no queue is ever empty.
-/

namespace LispBridge.Device

/-- Why a request to the device fails. -/
inductive Fault
  /-- The argument with the given number, counted from one, is missing. -/
  | missingArgument (op : String) (number : Nat)
  /-- The argument for a pin is no pin number. -/
  | badPin (op value : String)
  /-- The device has too few pins of the kind. -/
  | pinOutOfRange (op : String) (pin count : Nat)
  /-- The argument for an analog value is no number. -/
  | notANumber (op value : String)
  /-- The device was left in the middle of a change. -/
  | poisoned
  deriving DecidableEq, Repr

def Fault.message : Fault → String
  | .missingArgument op number => s!"{op}: missing argument #{number}"
  | .badPin op value => s!"{op}: '{value}' is not a pin number"
  | .pinOutOfRange op pin count => s!"{op}: pin {pin} out of range (device has {count})"
  | .notANumber op value => s!"{op}: '{value}' is not a number"
  | .poisoned => "emulator state lock poisoned"

structure Emulator where
  counts : PinCounts := {}
  pins : Table (PinKind × Nat) HostValue := {}
  events : Table String (List HostValue) := {}
  deriving Repr

namespace Emulator

/-! ## Direct access -/

/-- The value of a pin; a pin that nothing was stored on has its initial value. -/
def pin (d : Emulator) (kind : PinKind) (n : Nat) : HostValue :=
  (d.pins.get? (kind, n)).getD kind.initial

/-- Stores a value on a pin, which may be one that the device does not have. -/
def setPin (d : Emulator) (kind : PinKind) (n : Nat) (v : HostValue) : Emulator :=
  { d with pins := d.pins.set (kind, n) v }

/-- Remembers a click on a button until it is asked for. -/
def click (d : Emulator) (button : Nat) : Emulator :=
  d.setPin .button button (.bool true)

/-- The values of an event that wait to be taken, the oldest first. -/
def queue (d : Emulator) (event : String) : List HostValue :=
  (d.events.get? event).getD []

/-- Adds a value to an event's queue. -/
def pushEvent (d : Emulator) (event : String) (v : HostValue) : Emulator :=
  { d with events := d.events.set event (d.queue event ++ [v]) }

/-- The number of an event's waiting values. -/
def pending (d : Emulator) (event : String) : Nat :=
  (d.queue event).length

/-- The predefined functions with their types, and a register for each pin. -/
def primitives (d : Emulator) : List Primitive :=
  let pins (kind : PinKind) (params : List LispType) (result : LispType) : Primitive :=
    ⟨kind.operation, params, some result, List.range (d.counts.of kind)⟩
  [pins .digitalOut [.int, .bool] .bool,
    pins .digitalIn [.int] .bool,
    pins .analogOut [.int, .int] .int,
    pins .analogIn [.int] .int,
    pins .button [.int] .bool,
    ⟨"is_event", [.symbol], some .bool, []⟩,
    ⟨"pop_event", [.symbol], some .any, []⟩,
    ⟨"push_event", [.symbol, .any], some .bool, []⟩]

/-! ## Requests -/

/-- The argument of a request at an index. -/
def arg (r : Request) (index : Nat) : Except Fault String :=
  match r.args[index]? with
  | some s => .ok s
  | none => .error (.missingArgument r.op (index + 1))

/-- The pin that a request's first argument names. -/
def pinArg (d : Emulator) (r : Request) (kind : PinKind) : Except Fault Nat := do
  let raw ← arg r 0
  match Chars.unsigned? Chars.bound32 raw.toList with
  | none => .error (.badPin r.op raw)
  | some n =>
    if n < d.counts.of kind then .ok n
    else .error (.pinOutOfRange r.op n (d.counts.of kind))

/-- The number that a request's second argument decodes to. -/
def numberArg (r : Request) : Except Fault Binary64 := do
  let raw ← arg r 1
  match HostValue.ofWire raw with
  | .number n => .ok n
  | _ => .error (.notANumber r.op raw)

/-- Work on the device that may break off with a fault. What it has changed by then stays
changed. -/
abbrev Work := ExceptT Fault (StateM Emulator)

/-- What the work comes to, and the device after it. -/
def Work.on {α : Type} (w : Work α) (d : Emulator) : Except Fault α × Emulator :=
  Id.run (w.run.run d)

/-- Sets a digital output to the truth of a value. -/
def digitalWrite (r : Request) : Work String := do
  let n ← (← get).pinArg r .digitalOut
  let state := HostValue.bool (HostValue.ofWire (← arg r 1)).truthy
  modify (·.setPin .digitalOut n state)
  return state.wire

/-- Sets an analog output to a number. -/
def analogWrite (r : Request) : Work String := do
  let n ← (← get).pinArg r .analogOut
  let value := HostValue.number (← numberArg r)
  modify (·.setPin .analogOut n value)
  return value.wire

def readPin (r : Request) (kind : PinKind) : Work String := do
  let n ← (← get).pinArg r kind
  return ((← get).pin kind n).wire

/-- Reads a button and forgets its click. -/
def takeClick (r : Request) : Work String := do
  let n ← (← get).pinArg r .button
  let clicked := HostValue.bool ((← get).pin .button n).truthy
  modify fun d => { d with pins := d.pins.erase (.button, n) }
  return clicked.wire

/-- Adds a value to an event's queue. -/
def enqueue (r : Request) : Work String := do
  let event ← arg r 0
  let value := HostValue.ofWire (← arg r 1)
  modify (·.pushEvent event value)
  return trueText

/-- Whether an event has a waiting value. -/
def hasEvent (r : Request) : Work String := do
  let event ← arg r 0
  return (HostValue.bool (0 < (← get).pending event)).wire

/-- Takes the oldest value of an event's queue. -/
def dequeue (r : Request) : Work String := do
  let event ← arg r 0
  match (← get).queue event with
  | [] => return falseText
  | [v] =>
    modify fun d => { d with events := d.events.erase event }
    return v.wire
  | v :: rest =>
    modify fun d => { d with events := d.events.set event rest }
    return v.wire

/-- Does what a request asks for, and answers it. Operations that the device does not know have the
answer `()`. -/
def perform (r : Request) : Work String :=
  match r.op with
  | "dwrite" => digitalWrite r
  | "awrite" => analogWrite r
  | "dread" => readPin r .digitalIn
  | "aread" => readPin r .analogIn
  | "bclicked" => takeClick r
  | "push_event" => enqueue r
  | "is_event" => hasEvent r
  | "pop_event" => dequeue r
  | "task" => pure (minimalAnswer ("task " ++ " ".intercalate r.args))
  | _ => pure falseText

def apply (d : Emulator) (r : Request) : Except Fault String × Emulator :=
  (perform r).on d

end Emulator

/-- An emulated device behind a lock. The lock is poisoned when a change breaks off in the middle of
it; requests are refused from then on. -/
structure Shared where
  device : Emulator := {}
  poisoned : Bool := false
  deriving Repr

def Shared.answer (s : Shared) (request : String) : Except Fault String × Shared :=
  if s.poisoned then (.error .poisoned, s)
  else
    let r := s.device.apply (.ofText request)
    (r.1, { s with device := r.2 })

end LispBridge.Device
