/-!
Binary floating point numbers of 64 bits.

A number is a sign and a magnitude code, the other 63 bits of its interchange format read as a
natural number. Codes grow with the magnitudes they stand for. Every finite magnitude is a whole
number of units, a unit being the smallest positive magnitude `2 ^ -1074`, so that exact
comparisons and roundings take place in `Nat`.
-/

namespace LispBridge

/-- A binary floating point number of 64 bits. The greatest codes are
those of infinity and then of what is not a number. -/
structure Binary64 where
  /-- Whether the sign bit is set. -/
  negative : Bool
  /-- The exponent and fraction bits. -/
  code : Fin 0x8000000000000000
  deriving DecidableEq, Repr

/-- The whole number next to `num / den`, a half going to the even neighbour. -/
def roundEven (num den : Nat) : Nat :=
  let q := num / den
  let r := num % den
  if den < 2 * r ∨ (2 * r = den ∧ q % 2 = 1) then q + 1 else q

namespace Binary64

/-- The number of codes of the numbers with one exponent. -/
def binade : Nat := 0x10000000000000

def infinityCode : Nat := 2047 * binade

/-- How many units make up the number one. -/
def one : Nat := Nat.pow 2 1074

/-- Whether the number is neither infinite nor not a number. -/
def isFinite (x : Binary64) : Bool := x.code.val < infinityCode

/-- Whether the number is one of those that are not a number. -/
def isNaN (x : Binary64) : Bool := infinityCode < x.code.val

/-- Whether the number is zero, of either sign. -/
def isZero (x : Binary64) : Bool := x.code.val = 0

/-- Numeric equality: zeros of both signs are equal, and what is not a number equals nothing. -/
def numEq (x y : Binary64) : Bool :=
  !x.isNaN && !y.isNaN && (x == y || (x.isZero && y.isZero))

/-- The distance, in units, from a finite magnitude to the next greater one. -/
def gap (x : Binary64) : Nat := Nat.pow 2 (x.code.val / binade - 1)

/-- How many gaps a finite magnitude holds. -/
def significand (x : Binary64) : Nat :=
  if x.code.val < binade then x.code.val else binade + x.code.val % binade

/-- A finite magnitude in units. -/
def units (x : Binary64) : Nat := x.significand * x.gap

/-- The code of the magnitude nearest to `num / den` units; of two that are equally near, the one
with an even code. It can exceed `infinityCode`. -/
def codeOfUnits (num den : Nat) : Nat :=
  let shift := (num / den).log2 - 52
  shift * binade + roundEven num (den * Nat.pow 2 shift)

/-- The number with the given sign and code; codes beyond infinity stand for infinity. -/
def ofCode (negative : Bool) (code : Nat) : Binary64 :=
  ⟨negative, ⟨min code infinityCode,
    Nat.lt_of_le_of_lt (Nat.min_le_right ..) (by decide : infinityCode < 0x8000000000000000)⟩⟩

/-- The number nearest to `num / den` units. -/
def ofUnits (negative : Bool) (num den : Nat) : Binary64 :=
  ofCode negative (codeOfUnits num den)

/-- The number nearest to `num / den`. -/
def ofRatio (negative : Bool) (num den : Nat) : Binary64 :=
  ofUnits negative (num * one) den

/-- The number nearest to a whole number. -/
def ofInt (i : Int) : Binary64 :=
  ofRatio (i < 0) i.natAbs 1

/-- The product of two finite numbers, rounded to the nearest number. -/
def mul (x y : Binary64) : Binary64 :=
  ofUnits (x.negative != y.negative) (x.units * y.units) one

/-- The quotient of two finite numbers, rounded to the nearest number. -/
def div (x y : Binary64) : Binary64 :=
  ofUnits (x.negative != y.negative) (x.units * one) y.units

def neg (x : Binary64) : Binary64 := ⟨!x.negative, x.code⟩

/-- Whether a finite number is a whole number. -/
def isWhole (x : Binary64) : Bool := x.isFinite && x.units % one == 0

/-- The whole part of a finite number. -/
def toInt (x : Binary64) : Int :=
  let n : Int := x.units / one
  if x.negative then -n else n

def toBits (x : Binary64) : Nat :=
  (if x.negative then 0x8000000000000000 else 0) + x.code.val

/-- The number with the given bits, those above the lowest 64 being ignored. -/
def ofBits (bits : Nat) : Binary64 :=
  ⟨bits / 0x8000000000000000 % 2 == 1,
    ⟨bits % 0x8000000000000000, Nat.mod_lt _ (by decide)⟩⟩

theorem ofBits_toBits (x : Binary64) : ofBits x.toBits = x := by
  obtain ⟨s, c, hc⟩ := x
  cases s <;> simp [ofBits, toBits] <;> omega

end Binary64

end LispBridge
