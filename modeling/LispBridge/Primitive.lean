import LispBridge.Library.Entry
import LispBridge.Value.LispType

/-!
The host's description of a function that scripts may call.

A primitive has typed parameters, perhaps a type of result, and the registers that a user interface
has bound to it. A handle is one particular primitive: two handles on equal primitives are different
unless they are the same handle.
-/

namespace LispBridge

/-- A function that scripts may call, with its types. -/
structure Primitive where
  name : String
  paramTypes : List LispType := []
  returnType : Option LispType := none
  registers : List Nat := []
  deriving DecidableEq, Repr

namespace Primitive

def arity (p : Primitive) : Nat :=
  p.paramTypes.length

/-- The type of the parameter at an index. -/
def paramType? (p : Primitive) (index : Nat) : Option LispType :=
  p.paramTypes[index]?

/-- Sets the type of the parameter at an index; parameters of unknown type fill the gap before an
index past the end. -/
def setParamType (p : Primitive) (index : Nat) (type : LispType) : Primitive :=
  let missing := List.replicate (index + 1 - p.arity) LispType.unknown
  { p with paramTypes := (p.paramTypes ++ missing).set index type }

def addRegister (p : Primitive) (id : Nat) : Primitive :=
  { p with registers := p.registers ++ [id] }

/-- A primitive in words: name, parameter types, and the type of result after an arrow. -/
def display (p : Primitive) : String :=
  p.name ++ "(" ++ " ".intercalate (p.paramTypes.map LispType.name) ++ ")" ++
    match p.returnType with
    | some t => " -> " ++ t.name
    | none => ""

/-- The primitive that an entry declares; nothing is known of its types. -/
def ofEntry (e : Library.Entry) : Primitive :=
  { name := e.name, paramTypes := List.replicate e.arity .any }

/-- The entry of a primitive; its parameters have placeholders for names. -/
def toEntry (p : Primitive) : Library.Entry :=
  .ofParams p.name (.count p.arity)

/-- A particular primitive, told apart from equal ones by its number. -/
structure Handle where
  id : Nat
  primitive : Primitive
  deriving DecidableEq, Repr

/-- What a primitive can be compared with. -/
inductive Reference
  | handle (h : Handle)
  | name (s : String)
  deriving DecidableEq, Repr

/-- Whether a reference means this very primitive: the same handle, or its name. -/
def Handle.is (h : Handle) : Reference → Bool
  | .handle other => h.id == other.id
  | .name s => h.primitive.name == s

/-- A value of unchecked type that a primitive is asked to compare itself with. -/
inductive Argument
  | reference (r : Reference)
  | number
  | boolean
  | unit
  | other
  deriving DecidableEq, Repr

/-- A primitive was compared with something that is neither a primitive nor a name. -/
structure ArgumentError where
  kind : String
  deriving DecidableEq, Repr

def ArgumentError.message (e : ArgumentError) : String :=
  s!"invalid argument: expected a Primitive or a primitive name, but received {e.kind}"

/-- Compares a primitive with a value of unchecked type. -/
def Handle.isArgument (h : Handle) : Argument → Except ArgumentError Bool
  | .reference r => .ok (h.is r)
  | .number => .error ⟨"number"⟩
  | .boolean => .error ⟨"boolean"⟩
  | .unit => .error ⟨"unit"⟩
  | .other => .error ⟨"an unsupported type"⟩

end Primitive

end LispBridge
