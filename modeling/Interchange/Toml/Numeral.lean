import Interchange.Number.Reading
import Interchange.Toml.Scalar
/-!
# Numerals — how TOML reads numbers

Underscores stand singly between digits and mean nothing.  An integer has 64 bits in any radix.
-/
namespace Interchange
namespace Toml
namespace Numeral

/-- The digits behind one already read, and the text after them. -/
def moreDigits (isDigit : Char → Bool) : List Char → List Char × List Char
  | '_' :: c :: cs =>
    if isDigit c then
      let (ds, rest) := moreDigits isDigit cs
      (c :: ds, rest)
    else ([], '_' :: c :: cs)
  | c :: cs =>
    if isDigit c then
      let (ds, rest) := moreDigits isDigit cs
      (c :: ds, rest)
    else ([], c :: cs)
  | [] => ([], [])

def digits? (isDigit : Char → Bool) : List Char → Option (List Char × List Char)
  | c :: cs =>
    if isDigit c then
      let (ds, rest) := moreDigits isDigit cs
      some (c :: ds, rest)
    else none
  | [] => none

def integer? (i : Int) : Option Scalar := (int64? i).map .integer

def inRadix? (radix : Nat) (cs : List Char) : Option (Scalar × List Char) := do
  let (ds, rest) ← digits? (fun c => (digitValue? radix c).isSome) cs
  return (← integer? (← digitsValue? radix ds), rest)

def whole? : List Char → Option (List Char × List Char)
  | '0' :: cs => some (['0'], cs)
  | cs => digits? isDigit cs

/-- A double; a number too large for one is refused, unless it is negative. -/
def float? (negative : Bool) (digits : List Char) (exponent : Int) : Option Scalar := do
  let x := Binary64.ofDecimal negative (← digitsValue? 10 digits) exponent
  if x = .infinity false then none else return .float x

/-- An exponent behind its letter, which may start with zeros. -/
def exponent? (cs : List Char) : Option (Int × List Char) := do
  let (negative, cs) := splitSign cs
  let (ds, cs) ← digits? isDigit cs
  let n ← digitsValue? 10 ds
  return (if negative then -(n : Int) else n, cs)

/-- A double from its digits, the last `places` of which stand behind the point, and what follows them. -/
def scaled? (negative : Bool) (digits : List Char) (places : Nat) : List Char → Option (Scalar × List Char)
  | c :: cs =>
    if c = 'e' ∨ c = 'E' then do
      let (e, rest) ← exponent? cs
      return (← float? negative digits (e - places), rest)
    else (float? negative digits (-(places : Int))).map (·, c :: cs)
  | [] => (float? negative digits (-(places : Int))).map (·, [])

def decimal? (negative : Bool) (cs : List Char) : Option (Scalar × List Char) := do
  let (whole, rest) ← whole? cs
  match rest with
  | '.' :: cs =>
    let (fraction, rest) ← digits? isDigit cs
    scaled? negative (whole ++ fraction) fraction.length rest
  | 'e' :: _ => scaled? negative whole 0 rest
  | 'E' :: _ => scaled? negative whole 0 rest
  | rest =>
    let n ← digitsValue? 10 whole
    return (← integer? (if negative then -(n : Int) else n), rest)

def word? (negative : Bool) (cs : List Char) : Option (Scalar × List Char) :=
  match strip? "inf".toList cs, strip? "nan".toList cs with
  | some rest, _ => some (.float (.infinity negative), rest)
  | none, some rest => some (.float .nan, rest)
  | none, none => none

/-- **A number at the front of a text.** -/
def read? (cs : List Char) : Option (Scalar × List Char) :=
  match cs with
  | '0' :: 'x' :: cs => inRadix? 16 cs
  | '0' :: 'o' :: cs => inRadix? 8 cs
  | '0' :: 'b' :: cs => inRadix? 2 cs
  | cs =>
    let (negative, magnitude) := splitSign cs
    (decimal? negative magnitude).or (word? negative magnitude)

end Numeral
end Toml
end Interchange
