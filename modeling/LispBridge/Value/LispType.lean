/-!
The types of interpreter values, with their codes and names.
-/

namespace LispBridge

/-- The types of values that the interpreter distinguishes. -/
inductive LispType
  | unknown
  | int
  | bool
  | boolInt
  | symbol
  | cell
  | any
  deriving DecidableEq, Repr

/-- A code or a name that belongs to no type. -/
inductive TypeError
  | code (code : UInt8)
  | name (name : String)
  deriving DecidableEq, Repr

def TypeError.message : TypeError → String
  | .code n => s!"unknown type code {n.toNat}"
  | .name s => s!"unknown type name '{s}'"

namespace LispType

/-- Every type, in the order of the codes. -/
def all : List LispType :=
  [.unknown, .int, .bool, .boolInt, .symbol, .cell, .any]

/-- The code of a type on the wire. -/
def code : LispType → UInt8
  | .unknown => 0
  | .int => 1
  | .bool => 2
  | .boolInt => 3
  | .symbol => 4
  | .cell => 5
  | .any => 6

def name : LispType → String
  | .unknown => "Unknown"
  | .int => "Int"
  | .bool => "Bool"
  | .boolInt => "BoolInt"
  | .symbol => "Symbol"
  | .cell => "Cell"
  | .any => "Any"

def ofCode (code : UInt8) : Except TypeError LispType :=
  match all[code.toNat]? with
  | some t => .ok t
  | none => .error (.code code)

/-- The type with a given name; names are told apart by case. -/
def ofName (name : String) : Except TypeError LispType :=
  match all.find? (·.name == name) with
  | some t => .ok t
  | none => .error (.name name)

theorem ofCode_code (t : LispType) : ofCode t.code = .ok t := by
  cases t <;> rfl

end LispType

end LispBridge
