import LispBridge.Value.LispType
import LispBridge.Value.NumberText

/-!
Values as the host sees them and as they travel to the interpreter.

The wire is text: `#t` and `()` are the two truth values, what reads as a number is a number, and
anything else is a symbol. `HostValue.ofWire` decodes, `WireValue.ofHost` encodes, and the two
classifiers `LispType.ofWire` and `LispType.ofHost` agree with them.
-/

namespace LispBridge

def trueText : String := "#t"

/-- The wire text of falsehood, which is also the empty list. -/
def falseText : String := "()"

inductive HostValue
  | bool (b : Bool)
  | number (n : Binary64)
  | symbol (s : String)
  deriving DecidableEq, Repr

/-- A value about to be handed to the interpreter. -/
inductive WireValue
  | number (n : Binary64)
  | text (s : String)
  deriving DecidableEq, Repr

/-- Reads a number off a text, ignoring blanks around it. -/
def parseNumber (s : String) : Option Binary64 :=
  NumberText.read? s.toList

def Binary64.wireText (x : Binary64) : String :=
  String.ofList (NumberText.write x)

/-- The truth value that a wire text stands for, if any. -/
def truthOfWire? (wire : String) : Option Bool :=
  if wire = trueText then some true
  else if wire = falseText then some false
  else none

namespace HostValue

def display : HostValue → String
  | .bool b => if b then "true" else "false"
  | .number n => n.wireText
  | .symbol s => s

/-- Decodes wire text: a truth value, else a number, else a symbol. -/
def ofWire (wire : String) : HostValue :=
  match truthOfWire? wire with
  | some b => .bool b
  | none =>
    match parseNumber wire with
    | some n => .number n
    | none => .symbol wire

/-- Whether the device takes the value for true: falsehood and zero are not. -/
def truthy : HostValue → Bool
  | .bool b => b
  | .number n => !n.isZero
  | .symbol _ => true

end HostValue

namespace WireValue

/-- The text that is sent for a wire value. -/
def display : WireValue → String
  | .number n => n.wireText
  | .text s => s

/-- Encodes a host value. A symbol that reads as a number is sent as that number. -/
def ofHost : HostValue → WireValue
  | .bool true => .text trueText
  | .bool false => .text falseText
  | .number n => .number n
  | .symbol s =>
    match parseNumber s with
    | some n => .number n
    | none => .text s

/-- Encodes a host value that may be missing; a missing one is false. -/
def ofHost? : Option HostValue → WireValue
  | none => .text falseText
  | some v => ofHost v

end WireValue

/-- The wire text of a host value. -/
def HostValue.wire (v : HostValue) : String :=
  (WireValue.ofHost v).display

namespace LispType

/-- Classifies wire text as a truth value, a number or a symbol. -/
def ofWire (wire : String) : LispType :=
  if (truthOfWire? wire).isSome then .bool
  else if (parseNumber wire).isSome then .int
  else .symbol

/-- Classifies a host value as a truth value, a number or a symbol. -/
def ofHost : HostValue → LispType
  | .bool _ => .bool
  | .number _ => .int
  | .symbol _ => .symbol

/-- Wire text is classified as the value that it decodes to. -/
theorem ofHost_ofWire (wire : String) : ofHost (HostValue.ofWire wire) = ofWire wire := by
  unfold HostValue.ofWire ofWire
  cases truthOfWire? wire with
  | some b => rfl
  | none => cases parseNumber wire <;> rfl

end LispType

end LispBridge
