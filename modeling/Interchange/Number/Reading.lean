import Interchange.Number.Binary64
import Interchange.Number.Word
/-!
# Reading numbers from text

Whole texts are read: a number followed by anything is no number.
-/
namespace Interchange

/-- The value of a digit in a radix up to 36, letters of either case counting from ten. -/
def digitValue? (radix : Nat) (c : Char) : Option Nat :=
  let v :=
    if '0' ≤ c ∧ c ≤ '9' then c.toNat - 48
    else if 'a' ≤ c ∧ c ≤ 'z' then c.toNat - 87
    else if 'A' ≤ c ∧ c ≤ 'Z' then c.toNat - 55
    else radix
  if v < radix then some v else none

def isDigit (c : Char) : Bool := '0' ≤ c && c ≤ '9'

def digitsValueFrom? (radix : Nat) : Nat → List Char → Option Nat
  | acc, [] => some acc
  | acc, c :: cs => (digitValue? radix c).bind fun d => digitsValueFrom? radix (acc * radix + d) cs

/-- **The value of a text of digits**; the empty text has none. -/
def digitsValue? (radix : Nat) : List Char → Option Nat
  | [] => none
  | cs => digitsValueFrom? radix 0 cs

/-- A sign in front of a text, true for minus, and what follows it. -/
def splitSign : List Char → Bool × List Char
  | '-' :: cs => (true, cs)
  | '+' :: cs => (false, cs)
  | cs => (false, cs)

/-- **An integer with an optional sign** in a radix. -/
def readInt? (radix : Nat) (cs : List Char) : Option Int :=
  let (negative, digits) := splitSign cs
  (digitsValue? radix digits).map fun n => if negative then -(n : Int) else n

def readInt64? (cs : List Char) : Option Int64 :=
  (readInt? 10 cs).bind int64?

/-- The digits at the front of a text, and the rest. -/
def splitDigits (cs : List Char) : List Char × List Char := cs.span isDigit

/-- The exponent part at the end of a decimal number: nothing, or a letter `e`, an optional sign and digits. -/
def readExponent? : List Char → Option Int
  | [] => some 0
  | c :: cs => if c == 'e' || c == 'E' then readInt? 10 cs else none

/-- A decimal number without a sign: digits with at most one point among or around them, then an exponent. -/
def readUnsignedDecimal? (negative : Bool) (cs : List Char) : Option Binary64 :=
  let (whole, rest) := splitDigits cs
  let (fraction, rest) :=
    match rest with
    | '.' :: rest => splitDigits rest
    | rest => ([], rest)
  match digitsValue? 10 (whole ++ fraction), readExponent? rest with
  | some digits, some exponent => some (.ofDecimal negative digits (exponent - fraction.length))
  | _, _ => none

def lowerAscii (c : Char) : Char := if 'A' ≤ c ∧ c ≤ 'Z' then Char.ofNat (c.toNat + 32) else c

/-- **A double from its decimal text**: a decimal number, or an infinity or NaN spelled in any case, with an optional
sign.  The value is the double nearest to what is written, so a large one is an infinity. -/
def readFloat? (cs : List Char) : Option Binary64 :=
  let (negative, magnitude) := splitSign cs
  let word := String.ofList (magnitude.map lowerAscii)
  if word = "inf" ∨ word = "infinity" then some (.infinity negative)
  else if word = "nan" then some .nan
  else readUnsignedDecimal? negative magnitude

end Interchange
