import Interchange.Number.Digits
/-!
# Layout — how a double is written

One record says how digits become text: how they are chosen, which exponents are written positionally, and the
spelling of everything else.  Each output language has its record beside its printer.
-/
namespace Interchange

/-- How the digits of a double are chosen. -/
inductive Precision where
  | shortest (tie : Tie)
  | rounded (count : Nat)
deriving DecidableEq, Repr

/-- **How a double is written.** -/
structure FloatLayout where
  precision : Precision
  /-- The exponents of the leading digit that are written positionally; `none` means all. -/
  positional : Option (Int × Int)
  /-- Whether a whole number in positional notation ends in `.0`. -/
  wholePoint : Bool
  /-- The sign written before a positive exponent. -/
  exponentPlus : List Char
  /-- The least number of exponent digits. -/
  exponentWidth : Nat
  infinity : String
  nan : String
deriving Repr

namespace FloatLayout

def digits (layout : FloatLayout) (x : Binary64) : Digits :=
  match layout.precision with
  | .shortest tie => x.shortest tie
  | .rounded count => x.rounded count

/-- The digits in positional notation.  Rounding to significant digits first only settles the exponent; the double is then
rounded once more, to the places that leave as many digits with that exponent. -/
def positionalDigits (layout : FloatLayout) (x : Binary64) (d : Digits) : Digits :=
  match layout.precision with
  | .shortest _ => d
  | .rounded count => if x.isZero then d else x.roundedTo (d.exponent - (count - 1 : Nat))

def positionalText (layout : FloatLayout) (d : Digits) : List Char :=
  let ds := d.text
  let p := d.point
  if p ≤ 0 then '0' :: '.' :: (List.replicate (-p).toNat '0' ++ ds)
  else if ds.length ≤ p then
    ds ++ List.replicate (p.toNat - ds.length) '0' ++ (if layout.wholePoint then ['.', '0'] else [])
  else ds.take p.toNat ++ '.' :: ds.drop p.toNat

/-- Scientific notation: one digit before the point, and no point without digits after it. -/
def scientificText (layout : FloatLayout) (d : Digits) : List Char :=
  let mantissa :=
    match d.text with
    | c :: d' :: ds => c :: '.' :: d' :: ds
    | ds => ds
  let e := Nat.toDigits 10 d.exponent.natAbs
  mantissa ++ 'e' :: (if d.exponent < 0 then ['-'] else layout.exponentPlus)
    ++ List.replicate (layout.exponentWidth - e.length) '0' ++ e

def magnitudeText (layout : FloatLayout) (x : Binary64) : List Char :=
  let d := layout.digits x
  match layout.positional with
  | none => layout.positionalText (layout.positionalDigits x d)
  | some (low, high) =>
    if x.isZero ∨ (low ≤ d.exponent ∧ d.exponent ≤ high) then layout.positionalText (layout.positionalDigits x d)
    else layout.scientificText d

/-- **The text of a double.** -/
def render (layout : FloatLayout) (x : Binary64) : String :=
  if x.isNaN then layout.nan
  else
    let sign := if x.negative then "-" else ""
    if x.isInfinite then sign ++ layout.infinity else sign ++ String.ofList (layout.magnitudeText x)

end FloatLayout
end Interchange
