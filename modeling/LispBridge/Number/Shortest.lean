import LispBridge.Number.Decimal

/-!
The shortest decimal digits that stand for a binary number.

The decimals that round to a finite number fill an interval around it, which holds its ends if the
number's code is even. For one digit, two digits and so on the two neighbours of the number on that
decimal grid are tested; the first grid with a hit gives the digits, and of two hits the nearer one
wins. A tie between them is decided by the caller.
-/

namespace LispBridge

/-- What happens to a number that lies halfway between two candidates. -/
inductive Tie
  /-- The greater magnitude is taken. -/
  | away
  /-- The candidate with an even last digit is taken. -/
  | toEven
  deriving DecidableEq, Repr

namespace Binary64

/-- How many digits a positive finite number has before its point; a number below one tenth has a
negative count, the zeros after its point. -/
def place (x : Binary64) : Int :=
  (digitCount (x.units * Nat.pow 10 400 / one) : Int) - 400

/-- A decimal grid around a number: the whole multiples of a step. Step, number and interval are
all counted in one measure, a quarter of a unit divided by a power of ten, so that all comparisons
are between natural numbers. -/
structure Grid where
  /-- The step of the grid. -/
  step : Nat
  value : Nat
  /-- The lower end of the interval that rounds to the number. -/
  low : Nat
  /-- The upper end of the interval that rounds to the number. -/
  high : Nat
  /-- Whether the ends themselves round to the number. -/
  closed : Bool

/-- The grid whose step is `10 ^ exponent`, around a positive finite number. Below a power of two
the gap to the next smaller number is only half as wide. -/
def grid (x : Binary64) (exponent : Int) : Grid :=
  let scale := Nat.pow 10 (-exponent).toNat
  let below := if x.code.val % binade = 0 ∧ binade < x.code.val then x.gap else 2 * x.gap
  { step := 4 * (Nat.pow 10 exponent.toNat * one)
    value := 4 * x.units * scale
    low := (4 * x.units - below) * scale
    high := (4 * x.units + 2 * x.gap) * scale
    closed := x.code.val % 2 = 0 }

namespace Grid

/-- Whether the `d`-th point of the grid rounds to the number. -/
def hits (g : Grid) (d : Nat) : Bool :=
  if g.closed then g.low ≤ d * g.step && d * g.step ≤ g.high
  else g.low < d * g.step && d * g.step < g.high

/-- The grid point that stands for the number: the one of its two neighbours that rounds to it, and
if both do, the nearer one. -/
def pick? (tie : Tie) (g : Grid) : Option Nat :=
  let d := g.value / g.step
  match g.hits d, g.hits (d + 1) with
  | false, false => none
  | true, false => some d
  | false, true => some (d + 1)
  | true, true =>
    let r := 2 * (g.value % g.step)
    if r < g.step then some d
    else if g.step < r then some (d + 1)
    else match tie with
      | .away => some (d + 1)
      | .toEven => some (if d % 2 = 0 then d else d + 1)

end Grid

/-- A finite number as a decimal, exactly: a unit is a power of five over one of ten. -/
def exactDecimal (x : Binary64) : Decimal :=
  ⟨x.negative, x.units * Nat.pow 5 1074, -1074⟩

/-- Searches the grids of `count` digits and more, `fuel` of them; where none has a hit, the exact
decimal stands for the number. -/
def shortestFrom (tie : Tie) (x : Binary64) : (fuel count : Nat) → Decimal
  | 0, _ => x.exactDecimal
  | fuel + 1, count =>
    let exponent := x.place - count
    match (x.grid exponent).pick? tie with
    | some d => ⟨x.negative, d, exponent⟩
    | none => shortestFrom tie x fuel (count + 1)

end Binary64

namespace Decimal

/-- Moves the zeros at the end of the digits into the exponent. -/
def normalizeWithin : (fuel : Nat) → Decimal → Decimal
  | 0, d => d
  | fuel + 1, d =>
    if d.digits ≠ 0 ∧ d.digits % 10 = 0 then
      normalizeWithin fuel ⟨d.negative, d.digits / 10, d.exponent + 1⟩
    else d

/-- The decimal with the fewest digits that reads back as a given finite number, and nearest to it
among those; seventeen digits always suffice. Its last digit is not zero unless it is zero. -/
def shortest (tie : Tie) (x : Binary64) : Decimal :=
  if x.isZero then ⟨x.negative, 0, 0⟩
  else normalizeWithin 17 (x.shortestFrom tie 17 1)

/-- The decimal written without an exponent: all digits, the zeros that its exponent asks for, and
a point only if digits follow it. -/
def positional (d : Decimal) : List Char :=
  let digits := Nat.toDigits 10 d.digits
  let sign := if d.negative then ['-'] else []
  let zeros n := List.replicate n '0'
  let body :=
    if 0 ≤ d.exponent then digits ++ zeros d.exponent.toNat
    else
      let fraction := (-d.exponent).toNat
      if fraction < digits.length then
        digits.take (digits.length - fraction) ++ '.' :: digits.drop (digits.length - fraction)
      else '0' :: '.' :: (zeros (fraction - digits.length) ++ digits)
  sign ++ body

end Decimal

end LispBridge
