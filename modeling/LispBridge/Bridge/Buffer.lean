import LispBridge.Bridge.Journal

/-!
Scratch buffers in a module's memory.

A buffer is a block of known capacity. Only ASCII text that fits together with its end is handed to
the module; anything else is refused without a call.
-/

namespace LispBridge.Bridge

/-- Whether all characters of a text are ASCII. -/
def isAscii (s : String) : Bool :=
  s.toList.all fun c => c.toNat < 128

/-- A block of a module's memory. -/
structure Buffer where
  addr : Addr
  capacity : Nat
  deriving DecidableEq, Repr

namespace Buffer

variable {σ : Type} (m : Module σ)

def alloc (capacity : Nat) (t : Traced σ) : Except ModuleError Buffer × Traced σ :=
  match t.alloc m capacity with
  | (.ok addr, t) => (.ok ⟨addr, capacity⟩, t)
  | (.error e, t) => (.error e, t)

def free (b : Buffer) (t : Traced σ) : Traced σ :=
  t.free m b.addr

/-- Why a text cannot be stored in a buffer, if that is so. -/
def refusal? (b : Buffer) (text : String) : Option ModuleError :=
  if !isAscii text then some .notAscii
  else if b.capacity < text.utf8ByteSize + 1 then some (.overflow b.addr text.utf8ByteSize)
  else none

def write (b : Buffer) (text : String) (t : Traced σ) : Except ModuleError Unit × Traced σ :=
  match b.refusal? text with
  | some e => (.error e, t)
  | none => t.write m b.addr text

def read (b : Buffer) (t : Traced σ) : Except ModuleError String × Traced σ :=
  t.read m b.addr

/-- Allocates a buffer that just holds a text, and stores the text in it. A buffer that cannot be
filled is given back. -/
def ofText (text : String) (t : Traced σ) : Except ModuleError Buffer × Traced σ :=
  match alloc m (text.utf8ByteSize + 1) t with
  | (.error e, t) => (.error e, t)
  | (.ok b, t) =>
    match b.write m text t with
    | (.ok (), t) => (.ok b, t)
    | (.error e, t) => (.error e, b.free m t)

end Buffer

end LispBridge.Bridge
