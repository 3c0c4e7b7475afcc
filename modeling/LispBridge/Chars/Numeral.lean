/-!
Numerals of whole numbers in bounded ranges.

A numeral is a nonempty run of digits of its base. An unsigned numeral may have one plus sign
before it; a signed one a plus or a minus sign. A numeral outside its range is none.
-/

namespace LispBridge.Chars

/-- The value of a digit in a base up to sixteen; letters of both cases are digits above nine. -/
def digit? (base : Nat) (c : Char) : Option Nat :=
  let v? :=
    if '0' ≤ c ∧ c ≤ '9' then some (c.toNat - '0'.toNat)
    else if 'a' ≤ c ∧ c ≤ 'f' then some (c.toNat - 'a'.toNat + 10)
    else if 'A' ≤ c ∧ c ≤ 'F' then some (c.toNat - 'A'.toNat + 10)
    else none
  v?.filter (· < base)

/-- The number that a list of digit values writes in a base, the most significant first. -/
def ofDigits (base : Nat) (ds : List Nat) : Nat :=
  ds.foldl (fun n d => base * n + d) 0

/-- Numbers of 32 bits lie below this bound. -/
def bound32 : Nat := 0x100000000

/-- Numbers of 64 bits lie below this bound. -/
def bound64 : Nat := 0x10000000000000000

/-- Reads a nonempty run of digits, without a sign. -/
def natural? (base : Nat) (cs : List Char) : Option Nat :=
  if cs.isEmpty then none else (cs.mapM (digit? base)).map (ofDigits base)

/-- Reads a decimal numeral below `bound`, with at most one plus sign before it. -/
def unsigned? (bound : Nat) (cs : List Char) : Option Nat :=
  let digits := match cs with
    | '+' :: rest => rest
    | _ => cs
  (natural? 10 digits).filter (· < bound)

/-- Reads a decimal numeral from `-bound` up to and without `bound`, with at most one sign. -/
def signed? (bound : Nat) (cs : List Char) : Option Int :=
  let value := match cs with
    | '-' :: rest => (natural? 10 rest).map fun n => -(n : Int)
    | '+' :: rest => (natural? 10 rest).map Int.ofNat
    | _ => (natural? 10 cs).map Int.ofNat
  value.filter fun i => -(bound : Int) ≤ i && i < bound

end LispBridge.Chars
