import Interchange.Document
/-!
# JSON scalars

What JSON holds beside arrays and objects, and how the values of a table become that.
-/
namespace Interchange
namespace Json

inductive Scalar where
  | null
  | bool (b : Bool)
  | integer (i : Int64)
  | float (x : Binary64)
  | string (s : String)
deriving DecidableEq, Repr

/-- The scalar of a number.  JSON writes no infinity and no NaN. -/
def Scalar.ofNumber : Number → Scalar
  | .integer i => .integer i
  | .float x => if x.isFinite then .float x else .null

def Scalar.value : Scalar → Value
  | null => .nil
  | bool b => .bool b
  | integer i => .integer i
  | float x => .float x
  | string s => .string s

/-- **JSON holds every scalar**, nil as null, also as a member. -/
def dialect : Dialect Scalar where
  format := .json
  null := some .null
  bool := .bool
  number := .ofNumber
  string := .string
  keepsNil := true
  badKey := .keyType

end Json
end Interchange
