import Interchange.Number.Rounding
/-!
# Binary64 — doubles as their bit patterns

A double is the 64 bits of its IEEE 754 encoding, so equality of doubles is equality of patterns and is decidable.  A
finite double is `± magnitude / 2 ^ 1074` for a natural `magnitude`: all arithmetic is exact arithmetic on naturals,
followed by one rounding.
-/
namespace Interchange

/-- A double: the bits of its encoding. -/
structure Binary64 where
  bits : UInt64
deriving DecidableEq, Repr, Inhabited

namespace Binary64

def word (x : Binary64) : Nat := x.bits.toNat

def negative (x : Binary64) : Bool := x.word / twoTo 63 == 1

def unsignedWord (x : Binary64) : Nat := x.word % twoTo 63

def exponentField (x : Binary64) : Nat := x.unsignedWord / twoTo 52

def fraction (x : Binary64) : Nat := x.unsignedWord % twoTo 52

def infinityWord : Nat := 2047 * twoTo 52

def isFinite (x : Binary64) : Bool := x.unsignedWord < infinityWord

def isInfinite (x : Binary64) : Bool := x.unsignedWord == infinityWord

def isNaN (x : Binary64) : Bool := infinityWord < x.unsignedWord

def isZero (x : Binary64) : Bool := x.unsignedWord == 0

/-- The significand of a finite double; below `2 ^ 52` exactly for zeros and subnormals. -/
def significand (x : Binary64) : Nat :=
  if x.exponentField = 0 then x.fraction else twoTo 52 + x.fraction

/-- The exponent of the unit of the significand, counted from `2 ^ -1074`. -/
def unit (x : Binary64) : Nat := x.exponentField - 1

/-- **The magnitude of a finite double** in units of `2 ^ -1074`. -/
def magnitude (x : Binary64) : Nat := x.significand * twoTo x.unit

def ofWord (negative : Bool) (word : Nat) : Binary64 :=
  ⟨UInt64.ofNat ((if negative then twoTo 63 else 0) + word)⟩

def zero (negative : Bool) : Binary64 := ofWord negative 0

def infinity (negative : Bool) : Binary64 := ofWord negative infinityWord

def nan : Binary64 := ofWord false (infinityWord + twoTo 51)

/-- **The unsigned pattern of the double nearest to `num / den`**, a tie going to the even significand.  The unit is the
least one under which the significand has at most 53 bits; adding the significand to the shifted unit carries into the
exponent by itself, and everything from the first pattern past the largest finite one is the infinity. -/
def nearestWord (num den : Nat) : Nat :=
  let scaled := num * twoTo 1074
  let unit := (scaled / den).log2 - 52
  min (unit * twoTo 52 + divNearest .toEven scaled (den * twoTo unit)) infinityWord

/-- The double nearest to `± num / den`. -/
def ofRatio (negative : Bool) (num den : Nat) : Binary64 := ofWord negative (nearestWord num den)

/-- The double nearest to an integer; zero is positive. -/
def ofInt (i : Int) : Binary64 := ofRatio (i < 0) i.natAbs 1

/-- **The double nearest to `± digits · 10 ^ exponent`.**  Values of more than 310 digits before the point overflow, and
values with more than 330 zeros after it vanish, whatever the digits are; those never reach the exact division. -/
def ofDecimal (negative : Bool) (digits : Nat) (exponent : Int) : Binary64 :=
  let point := (decimalLength digits : Int) + exponent
  if digits = 0 ∨ point < -330 then zero negative
  else if 310 < point then infinity negative
  else
    let (num, den) := scaledQuotient digits 1 (-exponent)
    ofRatio negative num den

/-- Numeric equality: a NaN equals nothing, and the two zeros are equal. -/
def numericEq (x y : Binary64) : Bool :=
  !x.isNaN && !y.isNaN && (x == y || (x.isZero && y.isZero))

/-- The place of a number among all doubles in numeric order; the two zeros share one. -/
def rank (x : Binary64) : Int := if x.negative then -(x.unsignedWord : Int) else x.unsignedWord

/-- Numeric order: a NaN is at most nothing, and nothing is at most a NaN. -/
def le (x y : Binary64) : Bool := !x.isNaN && !y.isNaN && x.rank ≤ y.rank

def lt (x y : Binary64) : Bool := !x.isNaN && !y.isNaN && x.rank < y.rank

/-- Whether a double has no fractional part; infinities and NaNs are not whole. -/
def isWhole (x : Binary64) : Bool := x.isFinite && x.magnitude % twoTo 1074 == 0

/-- **A double cut to an integer of 64 bits**: its fractional part is dropped, the nearest integer stands for what is out of
range, and zero for a NaN. -/
def truncate (x : Binary64) : Int64 :=
  if x.isNaN then 0
  else
    let whole : Int := (x.magnitude / twoTo 1074 : Nat)
    let value := if x.negative then -whole else whole
    Int64.ofInt (max Int64.minValue.toInt (min value Int64.maxValue.toInt))

/-- **The integer a double is**, if it is one that fits in 64 bits.  The double nearest to the greatest integer of 64 bits is
one more than it, so the double has to be below that. -/
def toInt64? (x : Binary64) : Option Int64 :=
  if x.isWhole && (ofInt Int64.minValue.toInt).le x && x.lt (ofInt Int64.maxValue.toInt) then some x.truncate else none

end Binary64
end Interchange
