import LispBridge.Bridge.Module

/-!
A module together with a journal of all that is done to it.

Every call to the module goes through a function of this file, which enters the call and its result
in the journal; the bridge adds what it does in between.
-/

namespace LispBridge.Bridge

/-- An entry of a journal. -/
inductive Event
  | alloc (size : Nat) (result : Except ModuleError Addr)
  | free (addr : Addr)
  | write (addr : Addr) (text : String) (result : Except ModuleError Unit)
  | read (addr : Addr) (result : Except ModuleError String)
  | callback (present : Bool)
  | enter (args : EvalArgs)
  /-- An evaluation returned a result, or broke down. -/
  | leave (result : Option (Except ModuleError Int))
  | terminate
  | ask (request : String)
  | wake (woken : Woken)
  | occupy
  /-- The slot for evaluations was given back. -/
  | release
  /-- A remark by the module or the handler. -/
  | note (note : Note)
  deriving DecidableEq, Repr

/-- The state of a module and the journal, in the order of time. -/
structure Traced (σ : Type) where
  module : σ
  journal : List Event := []

namespace Traced

variable {σ : Type} (m : Module σ) (t : Traced σ)

def record (e : Event) : Traced σ :=
  { t with journal := t.journal ++ [e] }

def alloc (size : Nat) : Except ModuleError Addr × Traced σ :=
  let r := m.alloc size t.module
  (r.1, ⟨r.2, t.journal ++ [.alloc size r.1]⟩)

def free (addr : Addr) : Traced σ :=
  ⟨m.free addr t.module, t.journal ++ [.free addr]⟩

def write (addr : Addr) (text : String) : Except ModuleError Unit × Traced σ :=
  let r := m.write addr text t.module
  (r.1, ⟨r.2, t.journal ++ [.write addr text r.1]⟩)

def read (addr : Addr) : Except ModuleError String × Traced σ :=
  let r := m.read addr t.module
  (r, t.record (.read addr r))

def setCallback (present : Bool) : Traced σ :=
  ⟨m.setCallback present t.module, t.journal ++ [.callback present]⟩

def terminate : Traced σ :=
  ⟨m.terminate t.module, t.journal ++ [.terminate]⟩

end Traced

end LispBridge.Bridge
