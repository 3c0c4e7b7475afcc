import LispBridge.Value.Basic

/-!
The contract between the bridge and an interpreter module.

A module has a memory in which the host can allocate blocks and store and read text, a slot for the
outlet through which scripts reach the host, and an entry point that evaluates a script. What the
entry point does is a `Run`: it ends, or it stops at a request to the host and goes on with the
answer's address.
-/

namespace LispBridge.Bridge

structure Addr where
  val : UInt32
  deriving DecidableEq, Repr

/-- An address in words: eight digits in base sixteen. -/
def Addr.display (a : Addr) : String :=
  let digits := Nat.toDigits 16 a.val.toNat
  String.ofList ('0' :: 'x' :: (List.replicate (8 - digits.length) '0' ++ digits))

/-- What an evaluation is given: limits, and the addresses of library, script and output. -/
structure EvalArgs where
  maxHeap : Nat
  library : Addr
  input : Addr
  output : Addr
  taskLimit : Nat
  deriving DecidableEq, Repr

/-- How a call to a module fails. -/
inductive ModuleError
  /-- A block of this size cannot be had. -/
  | outOfMemory (size : Nat)
  /-- There is no block at the address. -/
  | badAddress (addr : Addr)
  /-- A text of this many bytes and its end do not fit the block. -/
  | overflow (addr : Addr) (length : Nat)
  /-- The text holds a character outside of ASCII. -/
  | notAscii
  | evaluation (reason : String)
  | terminated
  deriving DecidableEq, Repr

def ModuleError.message : ModuleError → String
  | .outOfMemory size => s!"out of module memory allocating {size} bytes"
  | .badAddress addr => s!"invalid buffer address {addr.display}"
  | .overflow addr length => s!"string of {length} bytes does not fit buffer {addr.display}"
  | .notAscii => "string is not ASCII"
  | .evaluation reason => s!"evaluation failed: {reason}"
  | .terminated => "evaluation terminated"

instance instDecidableEqExcept {ε α : Type} [DecidableEq ε] [DecidableEq α] :
    DecidableEq (Except ε α)
  | .ok a, .ok b => if h : a = b then isTrue (h ▸ rfl) else isFalse (h ∘ Except.ok.inj)
  | .error a, .error b => if h : a = b then isTrue (h ▸ rfl) else isFalse (h ∘ Except.error.inj)
  | .ok _, .error _ => isFalse (fun h => nomatch h)
  | .error _, .ok _ => isFalse (fun h => nomatch h)

/-- Nobody answers any more: the evaluation was given up. -/
structure Closed where
  deriving DecidableEq, Repr

def Closed.message : Closed → String
  | _ => "host callback channel closed"

/-- What a request to the host comes to: the address of the answer, or nobody answers. -/
abbrev Woken := Except Closed Addr

/-- A remark in a journal by a module or a handler. -/
inductive Note
  /-- A module found a text where its answer was to be. -/
  | answered (addr : Addr) (text : String)
  /-- A module has no outlet to ask through. -/
  | noOutlet
  /-- A module was told that nobody answers. -/
  | closed
  /-- A module stored a text in its own memory. -/
  | stored (addr : Addr) (text : String) (result : Except ModuleError Unit)
  /-- A handler used the bridge it serves: whether that was busy, whether it refused, and its
  result. -/
  | reentered (busy refused : Bool) (result : String)
  deriving DecidableEq, Repr

/-- A computation inside of a module of state `σ`. At each stop and at the end it carries the
module's state; a stop hands it over to the host, and takes back what the host made of it. -/
inductive Run (σ α : Type)
  | done (value : α) (state : σ)
  | aborted (state : σ)
  /-- It waits for the host to answer a request. -/
  | suspended (request : String) (state : σ) (resume : Woken → σ → Run σ α)
  /-- It makes a remark and goes on. -/
  | noted (note : Note) (next : Run σ α)

/-- Goes on with a computation where another one ends. -/
def Run.bind {σ α β : Type} : Run σ α → (α → σ → Run σ β) → Run σ β
  | .done value state, next => next value state
  | .aborted state, _ => .aborted state
  | .suspended request state resume, next =>
    .suspended request state fun woken state => (resume woken state).bind next
  | .noted note rest, next => .noted note (rest.bind next)

/-- An interpreter module of state `σ`. -/
structure Module (σ : Type) where
  version : σ → Nat
  alloc : Nat → σ → Except ModuleError Addr × σ
  free : Addr → σ → σ
  /-- Stores a text and its end. -/
  write : Addr → String → σ → Except ModuleError Unit × σ
  /-- Reads a text up to its end. -/
  read : Addr → σ → Except ModuleError String
  /-- Sets or clears the outlet to the host. -/
  setCallback : Bool → σ → σ
  /-- Evaluates a script; the result of one that ends is a status that means nothing to the
  bridge. -/
  evaluate : EvalArgs → σ → Run σ (Except ModuleError Int)
  terminate : σ → σ

end LispBridge.Bridge
