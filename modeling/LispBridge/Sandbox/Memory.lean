import LispBridge.Bridge.Module
import LispBridge.Table

/-!
The memory of the sandbox interpreter.

Blocks are handed out at growing addresses and hold one text each, of which reading sees what stands
before the first NUL.
-/

namespace LispBridge.Sandbox

open Bridge

/-- A block: the number of bytes it holds and the text last stored in it. -/
structure Block where
  capacity : Nat
  text : String := ""
  deriving DecidableEq, Repr

/-- The blocks in use, and the address of the next one. -/
structure Memory where
  blocks : Table Addr Block := {}
  next : UInt32 := 16
  /-- Larger blocks than this cannot be had. -/
  limit : Option Nat := none
  deriving Repr

namespace Memory

/-- Allocates a block. Addresses are sixteen bytes more apart than the blocks need, and start over
after 32 bits. -/
def alloc (size : Nat) (mem : Memory) : Except ModuleError Addr × Memory :=
  if mem.limit.any (· < size) then (.error (.outOfMemory size), mem)
  else
    let addr : Addr := ⟨mem.next⟩
    (.ok addr, { mem with
      blocks := mem.blocks.set addr ⟨size, ""⟩
      next := mem.next + UInt32.ofNat (size + 16) })

def free (addr : Addr) (mem : Memory) : Memory :=
  { mem with blocks := mem.blocks.erase addr }

/-- Stores a text if it and its end fit the block. -/
def write (addr : Addr) (text : String) (mem : Memory) : Except ModuleError Unit × Memory :=
  match mem.blocks.get? addr with
  | none => (.error (.badAddress addr), mem)
  | some b =>
    if b.capacity < text.utf8ByteSize + 1 then (.error (.overflow addr text.utf8ByteSize), mem)
    else (.ok (), { mem with blocks := mem.blocks.set addr ⟨b.capacity, text⟩ })

/-- Reads the text of a block up to its first NUL. -/
def read (addr : Addr) (mem : Memory) : Except ModuleError String :=
  match mem.blocks.get? addr with
  | none => .error (.badAddress addr)
  | some b => .ok (String.ofList (b.text.toList.takeWhile (· ≠ '\x00')))

end Memory

end LispBridge.Sandbox
