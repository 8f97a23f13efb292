import Interchange.Document
import Interchange.Toml.Moment
/-!
# TOML scalars

What TOML holds beside arrays and tables, and how the values of a table become that.  There is no nil.
-/
namespace Interchange
namespace Toml

inductive Scalar where
  | bool (b : Bool)
  | integer (i : Int64)
  | float (x : Binary64)
  | string (s : String)
  | moment (m : Moment)
deriving DecidableEq, Repr

/-- The members of a table. -/
abbrev Members := List (String × Document Scalar)

/-- The value that a scalar stands for.  A moment is its text. -/
def Scalar.value : Scalar → Value
  | bool b => .bool b
  | integer i => .integer i
  | float x => .float x
  | string s => .string s
  | moment m => .string (String.ofList m.text)

/-- **TOML has no nil**, so an entry that holds it is left out; every number is written as a double. -/
def dialect : Dialect Scalar where
  format := .toml
  null := none
  bool := .bool
  number n := .float n.toFloat
  string := .string
  keepsNil := false
  badKey := .nonStringKey .toml

end Toml
end Interchange
