/-!
# Rounding quotients of naturals

A quotient `num / den` is rounded to a nearest natural; the tie rule says what happens half way.  The remainder is
compared doubled, so no fraction is ever formed.
-/
namespace Interchange

def twoTo (k : Nat) : Nat := Nat.pow 2 k

def tenTo (k : Nat) : Nat := Nat.pow 10 k

/-- Where a quotient half way between two naturals goes. -/
inductive Tie where
  | toEven
  | up
deriving DecidableEq, Repr

namespace Tie

/-- The choice between `q` and `q + 1` at an exact half. -/
def pick : Tie → Nat → Nat
  | .toEven, q => q + q % 2
  | .up, q => q + 1

end Tie

/-- **The natural nearest to `num / den`**, an exact half going where `tie` says. -/
def divNearest (tie : Tie) (num den : Nat) : Nat :=
  let q := num / den
  let r := 2 * (num % den)
  if r < den then q else if den < r then q + 1 else tie.pick q

/-- The digits still to count, by at most `fuel` divisions by ten. -/
def decimalLengthWithin : Nat → Nat → Nat
  | 0, _ => 0
  | fuel + 1, n => if n = 0 then 0 else decimalLengthWithin fuel (n / 10) + 1

/-- **The number of decimal digits of `n`**, none for zero: the least `k` with `n < 10 ^ k`.  A number has no more
decimal digits than binary ones. -/
def decimalLength (n : Nat) : Nat := decimalLengthWithin (n.log2 + 1) n

/-- **The decimal exponent of `num / den`**: the `k` with `10 ^ k ≤ num / den < 10 ^ (k + 1)`, for positive arguments. -/
def decimalExponent (num den : Nat) : Int :=
  if den ≤ num then (decimalLength (num / den) : Int) - 1
  else -(decimalLength ((den + num - 1) / num - 1) : Int)

/-- The quotient `num / den` divided by `10 ^ scale`, as a numerator and a denominator. -/
def scaledQuotient (num den : Nat) (scale : Int) : Nat × Nat :=
  if 0 ≤ scale then (num, den * tenTo scale.toNat) else (num * tenTo (-scale).toNat, den)

end Interchange
