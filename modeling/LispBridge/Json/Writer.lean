import LispBridge.Json.Basic
import LispBridge.Number.Shortest

/-!
Writing JSON documents, on one line or spread over indented lines.

Numbers are written by their shortest digits, with an exponent outside of the range from `1e-5` up
to `1e16`; in strings only quotes, backslashes and control characters are escaped.
-/

namespace LispBridge.Json

/-- The four digits of a control character's code. -/
def hexEscape (c : Char) : List Char :=
  let digit (n : Nat) := Nat.digitChar (n % 16)
  ['\\', 'u', '0', '0', digit (c.toNat / 16), digit c.toNat]

def escape (c : Char) : List Char :=
  if c = '"' then ['\\', '"']
  else if c = '\\' then ['\\', '\\']
  else if c = '\n' then ['\\', 'n']
  else if c = '\r' then ['\\', 'r']
  else if c = '\t' then ['\\', 't']
  else if c = '\x08' then ['\\', 'b']
  else if c = '\x0c' then ['\\', 'f']
  else if c.toNat < 0x20 then hexEscape c
  else [c]

def quoted (s : String) : String :=
  String.ofList ('"' :: s.toList.flatMap escape ++ ['"'])

/-- The digits of a decimal as one with a point after the first of them, and its power of ten. -/
def scientific (d : Decimal) : List Char :=
  let digits := Nat.toDigits 10 d.digits
  let power : Int := d.exponent + digits.length - 1
  let fraction := match digits.tail with
    | [] => []
    | cs => '.' :: cs
  let sign := if power < 0 then '-' else '+'
  (if d.negative then ['-'] else []) ++ digits.take 1 ++ fraction ++ 'e' :: sign ::
    Nat.toDigits 10 power.natAbs

/-- A binary number that is written without an exponent has its point after at most this many
digits. -/
def maxPlace : Int := 16

/-- A binary number that is written without an exponent has its first digit at most five places
after the point. -/
def minPlace : Int := -5

/-- Writes a finite binary number; whole numbers end in `.0`, and a tie between two candidates for
the last digit goes to the even one. What is not finite has no JSON text but `null`. -/
def floatText (x : Binary64) : List Char :=
  if !x.isFinite then "null".toList
  else if x.isZero then (if x.negative then "-0.0" else "0.0").toList
  else
    let d := Decimal.shortest .toEven x
    let place : Int := d.exponent + digitCount d.digits
    if minPlace < place && place ≤ maxPlace then
      d.positional ++ if 0 ≤ d.exponent then ['.', '0'] else []
    else scientific d

def numberText : JsonNumber → String
  | .whole i => toString i
  | .float x => String.ofList (floatText x)

mutual

def compact : Json → String
  | .null => "null"
  | .bool b => if b then "true" else "false"
  | .number n => numberText n
  | .string s => quoted s
  | .array items => "[" ++ ",".intercalate (compactItems items) ++ "]"
  | .object fields => "\x7b" ++ ",".intercalate (compactFields fields) ++ "\x7d"

/-- Writes each item of an array on one line. -/
def compactItems : List Json → List String
  | [] => []
  | v :: items => v.compact :: compactItems items

/-- Writes each field of an object on one line. -/
def compactFields : List (String × Json) → List String
  | [] => []
  | (name, v) :: fields => (quoted name ++ ":" ++ v.compact) :: compactFields fields

end

/-- Spreads the parts of an array or object over lines, `depth` levels of two spaces inside. -/
def spread (opening closing : String) (depth : Nat) : List String → String
  | [] => opening ++ closing
  | parts =>
    let margin n := "\n" ++ String.ofList (List.replicate (2 * n) ' ')
    opening ++ margin (depth + 1) ++ ("," ++ margin (depth + 1)).intercalate parts ++
      margin depth ++ closing

mutual

/-- Writes a document over lines, where its first line is already indented. -/
def indentedAt (depth : Nat) : Json → String
  | .array items => spread "[" "]" depth (indentedItems (depth + 1) items)
  | .object fields => spread "\x7b" "\x7d" depth (indentedFields (depth + 1) fields)
  | v => v.compact

/-- Writes each item of an array over lines. -/
def indentedItems (depth : Nat) : List Json → List String
  | [] => []
  | v :: items => v.indentedAt depth :: indentedItems depth items

/-- Writes each field of an object over lines. -/
def indentedFields (depth : Nat) : List (String × Json) → List String
  | [] => []
  | (name, v) :: fields =>
    (quoted name ++ ": " ++ v.indentedAt depth) :: indentedFields depth fields

end

/-- Writes a document over lines, two spaces for each level. -/
def indented (v : Json) : String :=
  v.indentedAt 0

end LispBridge.Json
