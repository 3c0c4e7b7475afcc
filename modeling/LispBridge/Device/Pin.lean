import LispBridge.Value.Basic

/-!
The pins of a device, and how many of each kind it has.
-/

namespace LispBridge.Device

/-- The kinds of pins, each behind an operation of its own. -/
inductive PinKind
  | digitalOut
  | digitalIn
  | analogOut
  | analogIn
  | button
  deriving DecidableEq, Repr

namespace PinKind

def all : List PinKind :=
  [.digitalOut, .digitalIn, .analogOut, .analogIn, .button]

/-- The operation that reaches pins of a kind. -/
def operation : PinKind → String
  | .digitalOut => "dwrite"
  | .digitalIn => "dread"
  | .analogOut => "awrite"
  | .analogIn => "aread"
  | .button => "bclicked"

/-- The kind of pins that an operation reaches. -/
def ofOperation? (op : String) : Option PinKind :=
  all.find? (·.operation == op)

/-- What a pin holds before anything is stored on it: zero if it is analog, else false. -/
def initial : PinKind → HostValue
  | .analogOut | .analogIn => .number (.ofCode false 0)
  | _ => .bool false

end PinKind

/-- How many pins of each kind a device has. -/
structure PinCounts where
  digitalOut : Nat := 3
  digitalIn : Nat := 3
  analogOut : Nat := 3
  analogIn : Nat := 1
  button : Nat := 1
  deriving DecidableEq, Repr

/-- The number of pins of a kind. -/
def PinCounts.of (n : PinCounts) : PinKind → Nat
  | .digitalOut => n.digitalOut
  | .digitalIn => n.digitalIn
  | .analogOut => n.analogOut
  | .analogIn => n.analogIn
  | .button => n.button

end LispBridge.Device
