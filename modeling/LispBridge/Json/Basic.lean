import LispBridge.Number.Binary64

/-!
JSON documents.
-/

namespace LispBridge

/-- A JSON number: a whole number where the text allows it, else a binary number. -/
inductive JsonNumber
  | whole (i : Int)
  | float (x : Binary64)
  deriving DecidableEq, Repr

/-- A JSON document. The order of an object's fields is the order in which they are written. -/
inductive Json
  | null
  | bool (b : Bool)
  | number (n : JsonNumber)
  | string (s : String)
  | array (items : List Json)
  | object (fields : List (String × Json))
  deriving Repr

namespace Json

/-- Puts a field into fields that are sorted by name, in place of one with the same name. -/
def insertField (name : String) (value : Json) : List (String × Json) → List (String × Json)
  | [] => [(name, value)]
  | (n, v) :: fields =>
    if name = n then (name, value) :: fields
    else if name < n then (name, value) :: (n, v) :: fields
    else (n, v) :: insertField name value fields

def ofInt (i : Int) : Json := .number (.whole i)

end Json

end LispBridge
