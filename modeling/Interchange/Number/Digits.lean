import Interchange.Number.Binary64
/-!
# Digits — the decimal digits chosen for a double

Two choices of digits for the magnitude of a finite double: the fewest that still read back as the same double, and a
fixed number of significant ones.  Both are exact: a double is a quotient of naturals, and so are the ends of the
interval of numbers that round to it.
-/
namespace Interchange

/-- The number `digits · 10 ^ scale`. -/
structure Digits where
  digits : Nat
  scale : Int
deriving DecidableEq, Repr

namespace Digits

/-- Zeros at the end move into the scale, at most `fuel` of them. -/
def trimWithin : Nat → Digits → Digits
  | 0, d => d
  | fuel + 1, d => if d.digits ≠ 0 ∧ d.digits % 10 = 0 then trimWithin fuel ⟨d.digits / 10, d.scale + 1⟩ else d

def trim (d : Digits) : Digits := trimWithin (decimalLength d.digits) d

/-- The digits as text; zero is the one digit `0`. -/
def text (d : Digits) : List Char := Nat.toDigits 10 d.digits

/-- The place of the decimal point: how many digits stand before it. -/
def point (d : Digits) : Int := d.text.length + d.scale

def exponent (d : Digits) : Int := d.point - 1

end Digits

namespace Binary64

/-- The numbers that round to a double, as naturals over the denominator `2 ^ 1076`: the two ends, and whether they
belong to the interval. -/
structure Interval where
  lower : Nat
  upper : Nat
  closed : Bool

/-- **The rounding interval of a positive finite double.**  It reaches half a unit to each side, but only a quarter of a
unit below a power of two, where the doubles beneath are twice as dense.  The ends belong to it exactly when the
significand is even. -/
def interval (x : Binary64) : Interval :=
  let step := twoTo x.unit
  let below := if x.significand = twoTo 52 ∧ x.unit ≠ 0 then step else 2 * step
  ⟨4 * x.magnitude - below, 4 * x.magnitude + 2 * step, x.significand % 2 == 0⟩

/-- Whether `num / den` lies in an interval over the denominator `2 ^ 1076`. -/
def Interval.contains (i : Interval) (num den : Nat) : Bool :=
  let v := num * twoTo 1076
  if i.closed then i.lower * den ≤ v && v ≤ i.upper * den else i.lower * den < v && v < i.upper * den

/-- The grid points of step `10 ^ scale` next to a positive finite double that read back as it, the nearer first. -/
def gridPoint? (tie : Tie) (x : Binary64) (scale : Int) : Option Nat :=
  let (num, den) := scaledQuotient x.magnitude (twoTo 1074) scale
  let inside (d : Nat) : Bool :=
    let (n, m) := scaledQuotient d 1 (-scale)
    x.interval.contains n m
  let low := num / den
  match inside low, inside (low + 1) with
  | true, true => some (divNearest tie num den)
  | true, false => some low
  | false, true => some (low + 1)
  | false, false => none

/-- The first grid that holds a number reading back as `x`, from `tried + 1` digits on. -/
def shortestFrom (tie : Tie) (x : Binary64) (exponent : Int) : Nat → Nat → Digits
  | 0, tried => ⟨divNearest tie x.magnitude (twoTo 1074), -(tried : Int)⟩
  | fuel + 1, tried =>
    let scale := exponent - tried
    match gridPoint? tie x scale with
    | some d => ⟨d, scale⟩
    | none => shortestFrom tie x exponent fuel (tried + 1)

/-- **The fewest digits that read back as a finite double**, of those the nearest to it, a tie going where `tie` says.
Seventeen digits always suffice. -/
def shortest (tie : Tie) (x : Binary64) : Digits :=
  if x.isZero then ⟨0, 0⟩
  else (shortestFrom tie x (decimalExponent x.magnitude (twoTo 1074)) 17 0).trim

/-- **A finite double rounded to a multiple of `10 ^ scale`**, a tie going to the even one. -/
def roundedTo (scale : Int) (x : Binary64) : Digits :=
  let (num, den) := scaledQuotient x.magnitude (twoTo 1074) scale
  Digits.trim ⟨divNearest .toEven num den, scale⟩

/-- **A finite double rounded to `count` significant digits.** -/
def rounded (count : Nat) (x : Binary64) : Digits :=
  if x.isZero then ⟨0, 0⟩ else x.roundedTo (decimalExponent x.magnitude (twoTo 1074) - (count - 1 : Nat))

end Binary64
end Interchange
