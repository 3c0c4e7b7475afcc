import LispBridge.Bridge.Module

/-!
The channel between waiting calls and the host.

Each call that waits has a number. Its request is queued until the host receives it, and then
pending until the host answers it or lets it go. `outcomes` says how calls have ended; when the host
leaves, the queued calls end and later ones end at once.
-/

namespace LispBridge.Bridge

structure Channel where
  /-- Whether the host still receives. -/
  listening : Bool := true
  next : Nat := 0
  /-- The requests that the host has yet to receive, the oldest first. -/
  queued : List (Nat × String) := []
  /-- The requests that the host holds, in the order in which it received them. -/
  pending : List (Nat × String) := []
  /-- The requests that the host has received so far, the oldest first. -/
  received : List (Nat × String) := []
  /-- How calls have ended, in the order of time. -/
  outcomes : List (Nat × Woken) := []
  deriving DecidableEq, Repr

namespace Channel

/-- Makes a call; its number comes with the channel after it. -/
def suspend (request : String) (c : Channel) : Nat × Channel :=
  let id := c.next
  if c.listening then (id, { c with next := id + 1, queued := c.queued ++ [(id, request)] })
  else (id, { c with next := id + 1, outcomes := c.outcomes ++ [(id, .error ⟨⟩)] })

/-- Receives the oldest queued request, if there is one. -/
def receive (c : Channel) : Option (Nat × String) × Channel :=
  match c.queued with
  | [] => (none, c)
  | r :: rest =>
    (some r, { c with queued := rest, pending := c.pending ++ [r], received := c.received ++ [r] })

/-- Ends a pending call; one that is not pending stays as it is. -/
def settle (id : Nat) (woken : Woken) (c : Channel) : Channel :=
  if c.pending.any (·.1 = id) then
    { c with
      pending := c.pending.filter (·.1 ≠ id)
      outcomes := c.outcomes ++ [(id, woken)] }
  else c

def resume (id : Nat) (addr : Addr) (c : Channel) : Channel := c.settle id (.ok addr)

def abandon (id : Nat) (c : Channel) : Channel := c.settle id (.error ⟨⟩)

/-- The host stops receiving, which ends the queued calls. -/
def close (c : Channel) : Channel :=
  { c with
    listening := false
    queued := []
    outcomes := c.outcomes ++ c.queued.map fun r => (r.1, .error ⟨⟩) }

/-- How a call has ended, if it has. -/
def outcome? (c : Channel) (id : Nat) : Option Woken :=
  c.outcomes.lookup id

end Channel

end LispBridge.Bridge
