import LispBridge.Bridge.Buffer
import LispBridge.Json.Reader
import LispBridge.Library.Block
import LispBridge.Settings

/-!
One evaluation from its first buffer to its last.

A session takes the slot for evaluations, fills its buffers, runs the module's evaluation, answers
the requests that it stops at, reads the output, and gives everything back: first the outlet, then
the buffers, last the slot. An evaluation that is asked for while the slot is taken does nothing.
-/

namespace LispBridge.Bridge

/-- A bridge with an installed module of state `σ`, used by a host of state `η`. -/
structure Live (σ η : Type) extends Traced σ where
  settings : Settings := {}
  /-- Whether the slot for evaluations is taken. -/
  evaluating : Bool := false
  host : η

/-- What a handler makes of a request. -/
inductive Reply
  | answer (text : String)
  | failed (message : String)
  /-- It breaks down while it works out the answer. -/
  | aborted
  /-- It breaks down before it has begun to work out an answer. -/
  | crashed
  /-- It never answers, and the caller gives the evaluation up. -/
  | deserted
  deriving DecidableEq, Repr

/-- Why a caller gets no result. -/
inductive Break
  /-- The handler broke down where nothing shields the caller. -/
  | crashed
  /-- The caller went away. -/
  | deserted
  deriving DecidableEq, Repr

inductive Ending (α : Type)
  | returned (value : α)
  | broken (reason : Break)
  deriving DecidableEq, Repr

/-- Answers a request, and may change the bridge on the way. -/
abbrev Ask (σ η : Type) := String → Live σ η → Reply × Live σ η

/-- What to evaluate: a script, the library it runs with, and the bound on task iterations. -/
structure Call where
  script : String
  library : String
  taskLimit : Nat
  deriving DecidableEq, Repr

/-- Why an evaluation has no output document. -/
inductive BridgeError
  | module (e : ModuleError)
  | decode (e : Json.ParseError)
  | aborted
  deriving DecidableEq, Repr

def BridgeError.message : BridgeError → String
  | .module e => e.message
  | .decode e => s!"output is not valid JSON: {e.message}"
  | .aborted => "interpreter worker panicked"

/-! ## Buffers -/

/-- The buffers of a session. -/
structure Session where
  answer : Buffer
  output : Buffer
  input : Buffer
  library : Buffer
  deriving DecidableEq, Repr

namespace Session

variable {σ : Type} (m : Module σ)

/-- Makes the buffers of a session. If one of them cannot be had, those before it are given back,
the last one first. -/
def acquire (s : Settings) (call : Call) (t : Traced σ) :
    Except ModuleError Session × Traced σ :=
  match Buffer.alloc m s.answerCapacity t with
  | (.error e, t) => (.error e, t)
  | (.ok answer, t) =>
    match Buffer.alloc m s.outputCapacity t with
    | (.error e, t) => (.error e, answer.free m t)
    | (.ok output, t) =>
      match Buffer.ofText m call.script t with
      | (.error e, t) => (.error e, answer.free m (output.free m t))
      | (.ok input, t) =>
        match Buffer.ofText m call.library t with
        | (.error e, t) => (.error e, answer.free m (output.free m (input.free m t)))
        | (.ok library, t) => (.ok ⟨answer, output, input, library⟩, t)

/-- Clears the outlet and gives the buffers back. -/
def close (s : Session) (t : Traced σ) : Traced σ :=
  let t := t.setCallback m false
  s.answer.free m (s.output.free m (s.library.free m (s.input.free m t)))

def args (s : Session) (settings : Settings) (call : Call) : EvalArgs :=
  ⟨settings.maxHeap, s.library.addr, s.input.addr, s.output.addr, call.taskLimit⟩

/-- What an evaluation comes to: the output text, if it neither failed nor broke down. The status
that it returned means nothing. -/
def outcome (s : Session) (result : Option (Except ModuleError Int)) (t : Traced σ) :
    Except BridgeError String × Traced σ :=
  match result with
  | none => (.error .aborted, t)
  | some (.error e) => (.error (.module e), t)
  | some (.ok _) =>
    match s.output.read m t with
    | (.ok text, t) => (.ok text, t)
    | (.error e, t) => (.error (.module e), t)

end Session

/-! ## Requests -/

/-- The text that answers a request: the handler's, if it is ASCII and fits the answer buffer, else
falsehood. -/
def usable (capacity : Nat) (text : String) : String :=
  if isAscii text && text.utf8ByteSize + 1 ≤ capacity then text else falseText

/-- The text that answers a request, unless the caller gets no result. -/
def Reply.settle (capacity : Nat) : Reply → Except Break String
  | .answer text => .ok (usable capacity text)
  | .failed _ | .aborted => .ok falseText
  | .crashed => .error .crashed
  | .deserted => .error .deserted

/-- Stores an answer; if that fails, falsehood is tried once. -/
def Traced.post {σ : Type} (m : Module σ) (addr : Addr) (text : String) (t : Traced σ) :
    Traced σ :=
  match t.write m addr text with
  | (.ok (), t) => t
  | (.error _, t) => (t.write m addr falseText).2

namespace Live

variable {σ η α : Type} (m : Module σ)

/-- The bridge with its module in another state. -/
def withModule (l : Live σ η) (s : σ) : Live σ η := { l with module := s }

/-- The bridge with another state and journal of its module. -/
def withTraced (l : Live σ η) (t : Traced σ) : Live σ η := { l with toTraced := t }

def log (l : Live σ η) (e : Event) : Live σ η := l.withTraced (l.toTraced.record e)

/-- Runs an evaluation whose requests nobody answers. An evaluation that broke down has no
result. -/
def drain : Live σ η → Run σ α → Option α × Live σ η
  | l, .done value s => (some value, l.withModule s)
  | l, .aborted s => (none, l.withModule s)
  | l, .noted note next => drain (l.log (.note note)) next
  | l, .suspended _ s resume =>
    drain ((l.withModule s).log (.wake (.error ⟨⟩))) (resume (.error ⟨⟩) s)

/-- Runs an evaluation and answers its requests at an address. If the caller goes away meanwhile,
the evaluation runs on with nobody to answer. -/
def drive (ask : Ask σ η) (addr : Addr) :
    Live σ η → Run σ α → (Option α × Option Break) × Live σ η
  | l, .done value s => ((some value, none), l.withModule s)
  | l, .aborted s => ((none, none), l.withModule s)
  | l, .noted note next => drive ask addr (l.log (.note note)) next
  | l, .suspended request s resume =>
    let asked := ask request ((l.withModule s).log (.ask request))
    match asked.1.settle l.settings.answerCapacity with
    | .ok text =>
      let l := (asked.2.withTraced (asked.2.toTraced.post m addr text)).log (.wake (.ok addr))
      drive ask addr l (resume (.ok addr) l.module)
    | .error reason =>
      let l := asked.2.log (.wake (.error ⟨⟩))
      let r := l.drain (resume (.error ⟨⟩) l.module)
      ((r.1, some reason), r.2)

/-- Runs the evaluation of a session, with or without a handler, and closes the session. -/
def run (ask : Option (Ask σ η)) (session : Session) (call : Call) (l : Live σ η) :
    Ending (Except BridgeError String) × Live σ η :=
  let args := session.args l.settings call
  let l := l.withTraced ((l.toTraced.setCallback m ask.isSome).record (.enter args))
  let evaluation := m.evaluate args l.module
  let ran := match ask with
    | some ask => drive m ask session.answer.addr l evaluation
    | none =>
      let r := l.drain evaluation
      ((r.1, none), r.2)
  let l := ran.2.log (.leave ran.1.1)
  let result := session.outcome m ran.1.1 l.toTraced
  let l := l.withTraced (session.close m result.2)
  match ran.1.2 with
  | some reason => (.broken reason, l)
  | none => (.returned result.1, l)

def occupy (l : Live σ η) : Live σ η := { l with evaluating := true }.log .occupy

def release (l : Live σ η) : Live σ η := { l with evaluating := false }.log .release

def decode (text : String) : Except BridgeError (Option Json) :=
  match Json.ofText text with
  | .ok v => .ok (some v)
  | .error e => .error (.decode e)

/-- Evaluates a script, with or without a handler for its requests. Nothing happens and nothing is
returned if the slot is taken. -/
def evaluate (ask : Option (Ask σ η)) (call : Call) (l : Live σ η) :
    Ending (Except BridgeError (Option Json)) × Live σ η :=
  if l.evaluating then (.returned (.ok none), l)
  else
    let l := l.occupy
    match Session.acquire m l.settings call l.toTraced with
    | (.error e, t) => (.returned (.error (.module e)), (l.withTraced t).release)
    | (.ok session, t) =>
      match (l.withTraced t).run m ask session call with
      | (.broken reason, l) => (.broken reason, l.release)
      | (.returned (.error e), l) => (.returned (.error e), l.release)
      | (.returned (.ok text), l) => (.returned (decode text), l.release)

def terminate (l : Live σ η) : Live σ η := l.withTraced (l.toTraced.terminate m)

end Live

end LispBridge.Bridge
