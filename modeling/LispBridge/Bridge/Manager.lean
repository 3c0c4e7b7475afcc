import LispBridge.Bridge.Session
import LispBridge.Json.Writer
import LispBridge.Request

/-!
The bridge as its callers see it.

A manager waits for a module to be installed and keeps the first one. `Manager.execute` runs a
script with the predefined functions and the script's own; `Manager.evaluate` takes any library. A
`Program` is what a handler does with the bridge that it serves before it replies.
-/

namespace LispBridge.Bridge

inductive ExecutionResult
  | output (v : Json)
  /-- It was not run: no module is installed, or the slot is taken. -/
  | notRun
  | error (message : String)
  deriving Repr

namespace ExecutionResult

def toJson : ExecutionResult → Json
  | .output v => .object [("output", v)]
  | .notRun => .object [("output", .null)]
  | .error message => .object [("error", .string message)]

def ofEvaluation : Except BridgeError (Option Json) → ExecutionResult
  | .ok (some v) => .output v
  | .ok none => .notRun
  | .error e => .error e.message

end ExecutionResult

/-- What becomes of a value that a caller gets. -/
def Ending.map {α β : Type} (f : α → β) : Ending α → Ending β
  | .returned value => .returned (f value)
  | .broken reason => .broken reason

/-- The call that runs a script with the predefined functions and its own. Without a bound on task
iterations the one of the settings holds. -/
def Call.ofScript (settings : Settings) (script : String) (taskLimit : Option Nat) : Call :=
  ⟨script, Library.buildLibrary script, taskLimit.getD settings.taskLimit⟩

/-! ## Handlers that use the bridge -/

/-- What a handler does before it replies: it looks at and changes the host's state, asks whether
the slot is taken, stops the evaluation, evaluates scripts, makes remarks. -/
inductive Program (η : Type)
  | reply (r : Reply)
  | host (next : η → Program η)
  | setHost (s : η) (next : Program η)
  | isEvaluating (next : Bool → Program η)
  | terminate (next : Program η)
  | note (n : Note) (next : Program η)
  /-- Evaluates a script; `handled` says whether `handler` answers its requests. -/
  | evaluate (call : Call) (handled : Bool) (handler : String → Program η)
    (next : Ending (Except BridgeError (Option Json)) → Program η)

namespace Program

variable {σ η : Type} (m : Module σ)

/-- Carries a program out on a bridge. -/
def run : Program η → Live σ η → Reply × Live σ η
  | .reply r, l => (r, l)
  | .host next, l => (next l.host).run l
  | .setHost s next, l => next.run { l with host := s }
  | .isEvaluating next, l => (next l.evaluating).run l
  | .terminate next, l => next.run (l.terminate m)
  | .note n next, l => next.run (l.log (.note n))
  | .evaluate call handled handler next, l =>
    let ask : Ask σ η := fun request l => (handler request).run l
    let r := l.evaluate m (if handled then some ask else none) call
    (next r.1).run r.2

end Program

/-- A handler gives a program for each request. -/
abbrev Handler (η : Type) := String → Program η

/-- Answers requests by the programs of a handler. -/
def Handler.ask {σ η : Type} (m : Module σ) (h : Handler η) : Ask σ η :=
  fun request l => (h request).run m l

/-- The handler of a host that knows nothing. -/
def minimalHandler {η : Type} : Handler η :=
  fun request => .reply (.answer (minimalAnswer request))

/-! ## Managers -/

/-- A bridge before and after a module is installed. -/
inductive Manager (σ η : Type)
  | waiting (settings : Settings) (host : η)
  | ready (live : Live σ η)

namespace Manager

variable {σ η : Type} (m : Module σ)

/-- Installs a module in the given state, unless one is installed already; whether it did. -/
def install (s : σ) : Manager σ η → Bool × Manager σ η
  | .waiting settings host => (true, .ready { module := s, settings, host })
  | .ready l => (false, .ready l)

def isReady : Manager σ η → Bool
  | .waiting .. => false
  | .ready _ => true

/-- Whether the slot for evaluations is taken. -/
def isEvaluating : Manager σ η → Bool
  | .waiting .. => false
  | .ready l => l.evaluating

def version? : Manager σ η → Option Nat
  | .waiting .. => none
  | .ready l => some (m.version l.module)

def terminate : Manager σ η → Manager σ η
  | .waiting settings host => .waiting settings host
  | .ready l => .ready (l.terminate m)

def settings : Manager σ η → Settings
  | .waiting settings _ => settings
  | .ready l => l.settings

def host : Manager σ η → η
  | .waiting _ host => host
  | .ready l => l.host

/-- The manager with another state of the host. -/
def setHost (host : η) : Manager σ η → Manager σ η
  | .waiting settings _ => .waiting settings host
  | .ready l => .ready { l with host }

/-- Evaluates a script; nothing is returned if no module is installed or the slot is taken. -/
def evaluate (handler : Option (Handler η)) (call : Call) :
    Manager σ η → Ending (Except BridgeError (Option Json)) × Manager σ η
  | .waiting settings host => (.returned (.ok none), .waiting settings host)
  | .ready l =>
    let r := l.evaluate m (handler.map (Handler.ask m)) call
    (r.1, .ready r.2)

def execute (handler : Option (Handler η)) (script : String) (taskLimit : Option Nat)
    (mgr : Manager σ η) : Ending ExecutionResult × Manager σ η :=
  let r := mgr.evaluate m handler (.ofScript mgr.settings script taskLimit)
  (r.1.map .ofEvaluation, r.2)

end Manager

end LispBridge.Bridge
