import LispBridge.Chars.Blank
import LispBridge.Value.Basic

/-!
Requests of a script to the host.

A request is a list of words, the first of which names the operation.
-/

namespace LispBridge

structure Request where
  op : String
  args : List String
  deriving DecidableEq, Repr

namespace Request

/-- The request that a text makes; one without words has the empty operation. -/
def ofText (s : String) : Request :=
  match Text.words s with
  | [] => ⟨"", []⟩
  | op :: args => ⟨op, args⟩

/-- The word at an index, where the operation has index zero. -/
def token? (r : Request) : Nat → Option String
  | 0 => some r.op
  | n + 1 => r.args[n]?

end Request

/-- The answer of a host that knows nothing: the fourth word of a `task` request, and `()` to
everything else. -/
def minimalAnswer (request : String) : String :=
  let r := Request.ofText request
  if r.op = "task" then (r.token? 3).getD falseText else falseText

end LispBridge
