import Interchange.Document
import Interchange.Number.Reading
/-!
# YAML scalars

What YAML holds beside sequences and mappings.  A plain text may stand for a null, a boolean or a number; any other text
is a text of its own, whose value is again a boolean or a number if it is spelled as one.
-/
namespace Interchange
namespace Yaml

inductive Scalar where
  | null
  | bool (b : Bool)
  | integer (i : Int64)
  | float (x : Binary64)
  | string (s : String)
deriving DecidableEq, Repr

/-- The members of a mapping. -/
abbrev Members := List (String × Document Scalar)

def Scalar.value : Scalar → Value
  | null => .nil
  | bool b => .bool b
  | integer i => .integer i
  | float x => .float x
  | string s => .string s

/-- **YAML leaves out members that hold nil**; every number is written as a double. -/
def dialect : Dialect Scalar where
  format := .yaml
  null := some .null
  bool := .bool
  number n := .float n.toFloat
  string := .string
  keepsNil := false
  badKey := .nonStringKey .yaml

/-! ## Words -/

/-- A spelling of null, the empty one apart. -/
def isNullWord (cs : List Char) : Bool :=
  ["null", "Null", "NULL", "~"].any fun w => w.toList == cs

def boolWord? (cs : List Char) : Option Bool :=
  if ["true", "True", "TRUE"].any fun w => w.toList == cs then some true
  else if ["false", "False", "FALSE"].any fun w => w.toList == cs then some false
  else none

/-! ## Numbers -/

/-- Decimal digits with a zero too many in front, and perhaps a sign. -/
def hasRedundantZero (cs : List Char) : Bool :=
  match (splitSign cs).2 with
  | '0' :: d :: ds => (d :: ds).all isDigit
  | _ => false

/-- An unsigned integer, in a radix if it is marked. -/
def magnitude? : List Char → Option Nat
  | '0' :: 'x' :: ds => digitsValue? 16 ds
  | '0' :: 'o' :: ds => digitsValue? 8 ds
  | '0' :: 'b' :: ds => digitsValue? 2 ds
  | ds => digitsValue? 10 ds

/-- **A plain integer**: signed, without redundant zeros, and of 128 bits at most. -/
def plainInteger? (cs : List Char) : Option Int :=
  let (negative, digits) := splitSign cs
  if hasRedundantZero cs then none
  else
    match magnitude? digits with
    | none => none
    | some n =>
      if negative then if n ≤ twoTo 127 then some (-(n : Int)) else none
      else if n < twoTo 128 then some n else none

def floatWord? (cs : List Char) : Option Binary64 :=
  let (negative, magnitude) := splitSign cs
  if [".inf", ".Inf", ".INF"].any fun w => w.toList == magnitude then some (.infinity negative)
  else if [".nan", ".NaN", ".NAN"].any fun w => w.toList == cs then some .nan
  else none

/-- **A plain double**: a finite decimal number, or a word. -/
def plainFloat? (cs : List Char) : Option Binary64 :=
  (floatWord? cs).or ((readFloat? cs).filter Binary64.isFinite)

/-- The scalar of an integer, a double if it has more than 64 bits. -/
def Scalar.ofInt (i : Int) : Scalar :=
  match int64? i with
  | some n => integer n
  | none => float (.ofInt i)

/-! ## Texts -/

/-- **A scalar as its text spells it**, before a text is asked whether it spells a value of its own. -/
inductive Atom where
  | null
  | bool (b : Bool)
  | integer (i : Int)
  | float (x : Binary64)
  | text (cs : List Char)
deriving DecidableEq, Repr

/-- **What a plain text stands for**, if not for itself. -/
def plain? (cs : List Char) : Option Atom :=
  if cs.isEmpty || isNullWord cs then some .null
  else
    match boolWord? cs, plainInteger? cs with
    | some b, _ => some (.bool b)
    | none, some i => some (.integer i)
    | none, none => if hasRedundantZero cs then none else (plainFloat? cs).map .float

def Atom.ofPlain (cs : List Char) : Atom := (plain? cs).getD (.text cs)

/-- **The scalar of a text that stands for itself**: a boolean, a 64-bit integer or a double by its spelling, else the
text. -/
def Scalar.ofText (cs : List Char) : Scalar :=
  match boolWord? cs, readInt64? cs, readFloat? cs with
  | some b, _, _ => bool b
  | none, some i, _ => integer i
  | none, none, some x => float x
  | none, none, none => string (String.ofList cs)

/-- **The scalar of an atom.** -/
def Atom.scalar : Atom → Scalar
  | null => .null
  | bool b => .bool b
  | integer i => .ofInt i
  | float x => .float x
  | text cs => .ofText cs

end Yaml
end Interchange
