import LispBridge.Json.Basic
import LispBridge.Json.Error

/-!
Reading JSON numbers.

A numeral without fraction and exponent is a whole number if 64 bits hold it. All others become
binary numbers in two roundings: the leading digits, as many as 64 bits hold, are rounded to a
binary number, which is then multiplied or divided by a power of ten.
-/

namespace LispBridge.Json

/-- What reading a part of a text comes to: a stop, or a value and the rest of the text. -/
abbrev Reading (α : Type) := Except Stop (α × List Char)

def decimalDigit? (c : Char) : Option Nat :=
  if c.isDigit then some (c.toNat - '0'.toNat) else none

/-- The leading digits of a number are collected below this bound. -/
def significandBound : Nat := 0x10000000000000000

/-- Exponents are collected below this bound. -/
def exponentBound : Nat := 0x80000000

/-- Collects digits onto a number as long as it stays below a bound: the number, how many digits it
took, and the text from the first digit left or other character on. -/
def collect (bound : Nat) : Nat → Nat → List Char → Nat × Nat × List Char
  | n, taken, [] => (n, taken, [])
  | n, taken, c :: cs =>
    match decimalDigit? c with
    | none => (n, taken, c :: cs)
    | some d => if 10 * n + d < bound then collect bound (10 * n + d) (taken + 1) cs
      else (n, taken, c :: cs)

/-- The binary number nearest to a power of ten. -/
def tenTo (n : Nat) : Binary64 := .ofRatio false (Nat.pow 10 n) 1

/-- The greatest power of ten that is a binary number. -/
def maxPower : Nat := 308

/-- Multiplies or divides a whole number, rounded to a binary number, by a power of ten; none if the
result is infinite. Two divisions by the greatest power make every number zero. -/
def scale? (significand : Nat) (exponent : Int) : Option Binary64 :=
  let f := Binary64.ofRatio false significand 1
  let n := exponent.natAbs
  if 0 ≤ exponent then
    if maxPower < n then (if f.isZero then some f else none)
    else
      let product := f.mul (tenTo n)
      if product.isFinite then some product else none
  else if n ≤ maxPower then some (f.div (tenTo n))
  else if n ≤ 2 * maxPower then some ((f.div (tenTo maxPower)).div (tenTo (n - maxPower)))
  else some (.ofCode false 0)

/-- A binary number with the given sign. -/
def signedFloat (negative : Bool) (x : Binary64) : JsonNumber :=
  .float (if negative then x.neg else x)

/-- The number with the given sign, leading digits and power of ten. -/
def floatOf (negative : Bool) (significand : Nat) (exponent : Int) (rest : List Char) :
    Reading JsonNumber :=
  match scale? significand exponent with
  | some x => .ok (signedFloat negative x, rest)
  | none => .error (.before .numberOutOfRange rest)

/-- Whether a text goes on with a digit. -/
def startsWithDigit : List Char → Bool
  | [] => false
  | c :: _ => c.isDigit

/-- Reads an exponent, after its letter. An exponent that is too long makes the number zero if it is
negative, and a number other than zero too large if it is not. -/
def readExponent (negative : Bool) (significand : Nat) (start : Int) (cs : List Char) :
    Reading JsonNumber :=
  let signed : Bool × List Char := match cs with
    | '+' :: r => (false, r)
    | '-' :: r => (true, r)
    | _ => (false, cs)
  match signed.2 with
  | [] => .error (.before .endInValue [])
  | c :: r =>
    if !c.isDigit then .error (.at .invalidNumber (c :: r))
    else
      let (n, _, rest) := collect exponentBound 0 0 (c :: r)
      if startsWithDigit rest then
        if significand ≠ 0 ∧ signed.1 = false then .error (.at .numberOutOfRange rest)
        else .ok (signedFloat negative (.ofCode false 0), rest.dropWhile Char.isDigit)
      else floatOf negative significand (if signed.1 then start - n else start + n) rest

/-- Reads what may follow the last digit of a number's fraction. -/
def readAfterFraction (negative : Bool) (significand : Nat) (exponent : Int) (cs : List Char) :
    Reading JsonNumber :=
  match cs with
  | 'e' :: r | 'E' :: r => readExponent negative significand exponent r
  | _ => floatOf negative significand exponent cs

/-- Reads a fraction, after its point. Digits beyond those that 64 bits hold are passed over. -/
def readFraction (negative : Bool) (significand : Nat) (start : Nat) (cs : List Char) :
    Reading JsonNumber :=
  let (n, taken, rest) := collect significandBound significand 0 cs
  let exponent : Int := (start : Int) - taken
  if startsWithDigit rest then
    readAfterFraction negative n exponent (rest.dropWhile Char.isDigit)
  else if taken = 0 then
    .error (if rest.isEmpty then .before .endInValue [] else .at .invalidNumber rest)
  else readAfterFraction negative n exponent rest

/-- The whole number with the given sign and digits. Zero with a minus sign and what 64 bits with a
sign do not hold are binary numbers. -/
def wholeOf (negative : Bool) (n : Nat) : JsonNumber :=
  if !negative then .whole n
  else if 0 < n ∧ n ≤ 0x8000000000000000 then .whole (-(n : Int))
  else .float (.ofRatio true n 1)

/-- Reads what may follow the whole digits of a number, `dropped` of which are not part of
`significand`. -/
def readAfterWhole (negative : Bool) (significand dropped : Nat) (cs : List Char) :
    Reading JsonNumber :=
  match cs with
  | '.' :: r => readFraction negative significand dropped r
  | 'e' :: r | 'E' :: r => readExponent negative significand dropped r
  | _ =>
    if dropped = 0 then .ok (wholeOf negative significand, cs)
    else floatOf negative significand dropped cs

def readNumber (negative : Bool) (cs : List Char) : Reading JsonNumber :=
  match cs with
  | [] => .error (.before .endInValue [])
  | '0' :: r =>
    if startsWithDigit r then .error (.at .invalidNumber r) else readAfterWhole negative 0 0 r
  | c :: r =>
    if !c.isDigit then .error (.at .invalidNumber (c :: r))
    else
      let (n, _, rest) := collect significandBound 0 0 (c :: r)
      readAfterWhole negative n (rest.takeWhile Char.isDigit).length (rest.dropWhile Char.isDigit)

end LispBridge.Json
