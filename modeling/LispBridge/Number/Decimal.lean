import LispBridge.Chars.Numeral
import LispBridge.Number.Binary64

/-!
Decimal numbers and their literals.

A literal is an optional sign, digits with at most one point among them, and an optional exponent.
`Decimal.toBinary64` rounds a literal's exact value to the nearest binary number.
-/

namespace LispBridge

/-- The number `± digits * 10 ^ exponent`. -/
structure Decimal where
  /-- Whether the number has a minus sign. -/
  negative : Bool
  /-- The significant digits, read as one natural number. -/
  digits : Nat
  /-- The power of ten that the digits are multiplied by. -/
  exponent : Int
  deriving DecidableEq, Repr

/-- How many decimal digits a number has; zero has none. -/
def digitCount (n : Nat) : Nat :=
  if n = 0 then 0 else (Nat.toDigits 10 n).length

namespace Decimal

open Chars

/-- Cuts a sign off the front of a text; without one the sign is plus. -/
def takeSign : List Char → Bool × List Char
  | '-' :: cs => (true, cs)
  | '+' :: cs => (false, cs)
  | cs => (false, cs)

/-- Reads the exponent at the end of a literal, where no text means none. -/
def exponent? : List Char → Option Int
  | [] => some 0
  | c :: cs =>
    if c = 'e' ∨ c = 'E' then
      let signed := takeSign cs
      (natural? 10 signed.2).map fun n => if signed.1 then -(n : Int) else n
    else none

/-- The digits after the point that a text starts with, and what follows them; without a point
there are none. -/
def takeFraction : List Char → List Char × List Char
  | '.' :: cs => (cs.takeWhile Char.isDigit, cs.dropWhile Char.isDigit)
  | cs => ([], cs)

/-- Reads a whole text as a decimal literal. -/
def ofText? (cs : List Char) : Option Decimal :=
  let signed := takeSign cs
  let whole := signed.2.takeWhile Char.isDigit
  let fraction := takeFraction (signed.2.dropWhile Char.isDigit)
  match natural? 10 (whole ++ fraction.1), exponent? fraction.2 with
  | some digits, some e => some ⟨signed.1, digits, e - fraction.1.length⟩
  | _, _ => none

/-- The binary number nearest to a decimal one. A number of more than 310 places before the point
is infinite and one with more than 330 zeros after it is zero, so no power that the two cases leave
is large. -/
def toBinary64 (d : Decimal) : Binary64 :=
  let place : Int := digitCount d.digits + d.exponent
  if d.digits = 0 ∨ place < -330 then .ofCode d.negative 0
  else if 310 < place then .ofCode d.negative Binary64.infinityCode
  else .ofRatio d.negative (d.digits * Nat.pow 10 d.exponent.toNat)
      (Nat.pow 10 (-d.exponent).toNat)

end Decimal

end LispBridge
