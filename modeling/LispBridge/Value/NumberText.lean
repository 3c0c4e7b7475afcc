import LispBridge.Chars.Blank
import LispBridge.Number.Shortest

/-!
Numbers as text on the wire.

A number is read from a decimal literal or from a whole number in base sixteen, eight or two; it is
written as a whole number where that is exact and short, and by its shortest digits otherwise.
Infinity is never read.
-/

namespace LispBridge.NumberText

open Chars

/-- The base announced by the first two characters of a literal. -/
def base? : Char → Char → Option Nat
  | '0', 'x' | '0', 'X' => some 16
  | '0', 'o' | '0', 'O' => some 8
  | '0', 'b' | '0', 'B' => some 2
  | _, _ => none

/-- Whole numbers in an announced base lie below this bound: they have 128 bits. -/
def basedBound : Nat := 0x100000000000000000000000000000000

/-- Reads a whole number of at most 128 bits written in an announced base. -/
def based? : List Char → Option Binary64
  | a :: b :: digits =>
    (base? a b).bind fun base =>
      ((natural? base digits).filter (· < basedBound)).map fun n => .ofRatio false n 1
  | _ => none

/-- Reads a decimal literal whose value is finite after rounding. -/
def decimal? (cs : List Char) : Option Binary64 :=
  ((Decimal.ofText? cs).map Decimal.toBinary64).filter (·.isFinite)

/-- Reads a number, ignoring the blanks around it. -/
def read? (cs : List Char) : Option Binary64 :=
  let t := trim cs
  match based? t with
  | some n => some n
  | none => decimal? t

/-- Whole numbers below this magnitude are written as such. -/
def wholeLimit : Nat := 1000000000000000

/-- Writes a number. Whole numbers of less than sixteen digits have neither a point nor a sign of
zero; all other finite ones are written by their shortest digits, without an exponent, where a tie
goes away from zero. -/
def write (x : Binary64) : List Char :=
  if x.isNaN then "NaN".toList
  else if !x.isFinite then (if x.negative then "-inf" else "inf").toList
  else if x.isWhole && x.toInt.natAbs < wholeLimit then (toString x.toInt).toList
  else (Decimal.shortest .away x).positional

end LispBridge.NumberText
