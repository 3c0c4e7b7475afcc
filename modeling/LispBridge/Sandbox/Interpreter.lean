import LispBridge.Sandbox.Expr
import LispBridge.Sandbox.Memory

/-!
The sandbox interpreter.

It knows whole numbers of 64 bits with sums, products and differences, a few forms that fail on
purpose, and the functions that its library declares, for which it asks the host. A number that 64
bits do not hold breaks it down. In place of a script it can be told to go through a list of acts.
-/

namespace LispBridge.Sandbox

open Bridge

/-- A step that the interpreter is told to take in place of its script. -/
inductive Act
  /-- It makes a request and remarks what came of it. -/
  | suspend (request : String)
  /-- It stores a text in the output block. -/
  | output (text : String)
  | error (reason : String)
  /-- It fails over an address. -/
  | badAddress (addr : Addr)
  | status (value : Int)
  | abort
  deriving DecidableEq, Repr

structure Setup where
  version : Nat := 42
  /-- The numbers, from zero, of the allocations that fail. -/
  failAllocs : List Nat := []
  /-- The numbers, from zero, of the stores that fail. -/
  failWrites : List Nat := []
  /-- What it does in place of its script. -/
  acts : Option (List Act) := none
  deriving Repr

structure Machine where
  setup : Setup := {}
  memory : Memory := {}
  /-- Whether its outlet to the host is set. -/
  callback : Bool := false
  terminated : Bool := false
  /-- The requests that scripts have made. -/
  requests : List String := []
  allocs : Nat := 0
  /-- How many stores by the host or by acts there were. -/
  writes : Nat := 0
  deriving Repr

namespace Machine

/-- Allocates a block, unless this is an allocation that fails. -/
def alloc (size : Nat) (s : Machine) : Except ModuleError Addr × Machine :=
  let n := s.allocs
  let s := { s with allocs := n + 1 }
  if n ∈ s.setup.failAllocs then (.error (.outOfMemory size), s)
  else
    let r := s.memory.alloc size
    (r.1, { s with memory := r.2 })

/-- Stores a text, unless this is a store that fails. -/
def write (addr : Addr) (text : String) (s : Machine) : Except ModuleError Unit × Machine :=
  let n := s.writes
  let s := { s with writes := n + 1 }
  if n ∈ s.setup.failWrites then (.error (.badAddress addr), s)
  else
    let r := s.memory.write addr text
    (r.1, { s with memory := r.2 })

end Machine

/-- A step of an evaluation, which can fail. -/
def Eval (α : Type) : Type := Machine → Run Machine (Except ModuleError α)

namespace Eval

variable {α β : Type}

/-- The step that does nothing and has a value. -/
protected def pure (a : α) : Eval α := fun s => .done (.ok a) s

/-- One step after another, unless the first fails. -/
protected def bind (x : Eval α) (f : α → Eval β) : Eval β := fun s =>
  (x s).bind fun r s =>
    match r with
    | .ok a => f a s
    | .error e => .done (.error e) s

instance : Monad Eval where
  pure := Eval.pure
  bind := Eval.bind

def throw (e : ModuleError) : Eval α := fun s => .done (.error e) s

/-- The step that fails because of the script. -/
def fail (reason : String) : Eval α := throw (.evaluation reason)

/-- The step that breaks the interpreter down. -/
def abort : Eval α := fun s => .aborted s

/-- The step that has the state for its value. -/
def get : Eval Machine := fun s => .done (.ok s) s

def modify (f : Machine → Machine) : Eval Unit := fun s => .done (.ok ()) (f s)

def note (n : Note) : Eval Unit := fun s => .noted n (.done (.ok ()) s)

/-- The step that waits for the host to answer a request. -/
def suspend (request : String) : Eval Woken := fun s =>
  .suspended request s fun woken s => .done (.ok woken) s

def ofExcept : Except ModuleError α → Eval α
  | .ok a => Eval.pure a
  | .error e => throw e

def read (addr : Addr) : Eval String := do
  ofExcept ((← get).memory.read addr)

/-- The number, if 64 bits hold it; else the interpreter breaks down. -/
def checked (i : Int) : Eval Int :=
  if -(Value.bound : Int) ≤ i ∧ i < Value.bound then Eval.pure i else abort

/-- Puts numbers together one by one, each result being checked. -/
def fold (op : Int → Int → Int) : Int → List Int → Eval Int
  | i, [] => Eval.pure i
  | i, j :: js => do fold op (← checked (op i j)) js

end Eval

/-- The numbers among values that must all be numbers. -/
def numbers : List Value → Eval (List Int)
  | [] => pure []
  | .number i :: vs => do pure (i :: (← numbers vs))
  | v :: _ => .fail s!"not a number: {v.wire}"

/-- The difference of the first number and the sum of the others; of one number alone, its
opposite. -/
def difference : List Int → Eval Int
  | [] => pure 0
  | [i] => Eval.checked (-i)
  | i :: js => do Eval.checked (i - (← Eval.fold (· + ·) 0 js))

/-- Asks the host for a declared function's value. -/
def callHost (name : String) (args : List Value) : Eval Value := do
  if (← Eval.get).callback then
    let request := " ".intercalate (name :: args.map Value.wire)
    Eval.modify fun s => { s with requests := s.requests ++ [request] }
    match ← Eval.suspend request with
    | .error e => .fail e.message
    | .ok addr => pure (.ofAtom (← Eval.read addr))
  else .fail s!"{name}: no host callback"

/-- Applies a function to values. Functions that are built in hide declared ones. -/
def applyTo (declared : List String) (name : String) (args : List Value) : Eval Value :=
  match name with
  | "+" => do pure (.number (← Eval.fold (· + ·) 0 (← numbers args)))
  | "*" => do pure (.number (← Eval.fold (· * ·) 1 (← numbers args)))
  | "-" => do pure (.number (← difference (← numbers args)))
  | "fail" => .fail "fail called"
  | "raw" => pure .raw
  | _ =>
    if name ∈ declared then callHost name args
    else .fail s!"undefined function {name}"

mutual

/-- Evaluates an expression. A `spin` form waits until the evaluation is told to stop, so that all
that can come of it is that. -/
def eval (declared : List String) : Expr → Eval Value
  | .atom name => pure (.ofAtom name)
  | .list [] => pure .nil
  | .list (.list _ :: _) => .fail "bad function"
  | .list (.atom name :: args) =>
    if name = "spin" then .throw .terminated
    else do applyTo declared name (← evalAll declared args)

/-- Evaluates expressions from left to right. -/
def evalAll (declared : List String) : List Expr → Eval (List Value)
  | [] => pure []
  | e :: es => do
    let v ← eval declared e
    pure (v :: (← evalAll declared es))

end

/-- Evaluates expressions for the value of the last one; `last` is the value if there is none. -/
def evalForms (declared : List String) : (last : Value) → List Expr → Eval Value
  | last, [] => pure last
  | _, e :: es => do evalForms declared (← eval declared e) es

/-- Evaluates the script in the input block and stores its value in the output block. Expressions
before one that cannot be read are evaluated first. -/
def runScript (args : EvalArgs) : Eval Int := do
  Eval.modify fun s => { s with terminated := false }
  let library ← Eval.read args.library
  let script ← Eval.read args.input
  let read := forms [] (tokens script)
  let value ← evalForms (declaredNames library) .nil read.1
  if let some e := read.2 then Eval.fail e.message
  let s ← Eval.get
  let stored := s.memory.write args.output value.output
  Eval.modify fun s => { s with memory := stored.2 }
  Eval.ofExcept stored.1
  pure 0

/-- Makes a request and remarks what came of it. -/
def actRequest (request : String) : Eval Unit := do
  if (← Eval.get).callback then
    match ← Eval.suspend request with
    | .error _ => Eval.note .closed
    | .ok addr => Eval.note (.answered addr (← Eval.read addr))
  else Eval.note .noOutlet

def actStore (addr : Addr) (text : String) : Eval Unit := do
  let r := (← Eval.get).write addr text
  Eval.modify fun _ => r.2
  Eval.note (.stored addr text r.1)
  Eval.ofExcept r.1

/-- Goes through acts; the status after the last one is zero. -/
def runActs (args : EvalArgs) : List Act → Eval Int
  | [] => pure 0
  | .suspend request :: acts => do actRequest request; runActs args acts
  | .output text :: acts => do actStore args.output text; runActs args acts
  | .error reason :: _ => .fail reason
  | .badAddress addr :: _ => .throw (.badAddress addr)
  | .status value :: _ => pure value
  | .abort :: _ => .abort

def interpreter : Module Machine where
  version s := s.setup.version
  alloc := Machine.alloc
  free addr s := { s with memory := s.memory.free addr }
  write := Machine.write
  read addr s := s.memory.read addr
  setCallback present s := { s with callback := present }
  evaluate args s :=
    match s.setup.acts with
    | some acts => runActs args acts s
    | none => runScript args s
  terminate s := { s with terminated := true }

end LispBridge.Sandbox
