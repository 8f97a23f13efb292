import Interchange.Number.Layout
/-!
# Numbers — exact integers and doubles

A number is a 64-bit integer or a double.  Numbers are equal when they are numerically equal: two integers exactly, any
other pair as doubles.
-/
namespace Interchange

inductive Number where
  | integer (i : Int64)
  | float (x : Binary64)
deriving DecidableEq, Repr

namespace Number

def isInteger : Number → Bool
  | integer _ => true
  | float _ => false

def isFloat : Number → Bool
  | integer _ => false
  | float _ => true

/-- The integer a number is, a double counting when it is whole and in range. -/
def toInt64? : Number → Option Int64
  | integer i => some i
  | float x => x.toInt64?

def toFloat : Number → Binary64
  | integer i => .ofInt i.toInt
  | float x => x

/-- **Numeric equality.**  Two integers are compared exactly; an integer meets a double as the double nearest to it. -/
def numericEq : Number → Number → Bool
  | integer i, integer j => i == j
  | m, n => m.toFloat.numericEq n.toFloat

/-- **The text of a double as a datum**: fourteen significant digits, positional for exponents from -4 to 13, and without
zeros or a point at the end. -/
def floatLayout : FloatLayout where
  precision := .rounded 14
  positional := some (-4, 13)
  wholePoint := false
  exponentPlus := ['+']
  exponentWidth := 2
  infinity := "inf"
  nan := "nan"

def floatText (x : Binary64) : String := floatLayout.render x

def integerText (i : Int64) : String := toString i.toInt

/-- **The text of a number.** -/
def text : Number → String
  | integer i => integerText i
  | float x => floatText x

end Number
end Interchange
