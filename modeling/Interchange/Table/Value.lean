import Interchange.Number.Basic
/-!
# Values and keys

A value is data or a handle: a table is held by its identity, so several values can name one table.  A key is a number,
a text or a truth value; a double that is a whole number is never a double key when it comes from a number.
-/
namespace Interchange

/-- The identity of a table. -/
structure TableId where
  index : Nat
deriving DecidableEq, Repr

inductive Value where
  | nil
  | bool (b : Bool)
  | number (n : Number)
  | string (s : String)
  | table (id : TableId)
  /-- A thing of the host that no format can hold, under the name of its type. -/
  | foreign (kind : String) (handle : Nat)
deriving DecidableEq, Repr, Inhabited

inductive Key where
  | integer (i : Int64)
  | float (x : Binary64)
  | string (s : String)
  | bool (b : Bool)
deriving DecidableEq, Repr

namespace Value

def typeName : Value → String
  | nil => "nil"
  | bool _ => "boolean"
  | number _ => "number"
  | string _ => "string"
  | table _ => "table"
  | foreign kind _ => kind

def isNil : Value → Bool
  | nil => true
  | _ => false

def isBool : Value → Bool
  | bool _ => true
  | _ => false

def isNumber : Value → Bool
  | number _ => true
  | _ => false

def isString : Value → Bool
  | string _ => true
  | _ => false

def isTable : Value → Bool
  | table _ => true
  | _ => false

def bool? : Value → Option Bool
  | bool b => some b
  | _ => none

def number? : Value → Option Number
  | number n => some n
  | _ => none

def string? : Value → Option String
  | string s => some s
  | _ => none

def table? : Value → Option TableId
  | table id => some id
  | _ => none

def int64? (v : Value) : Option Int64 := v.number?.bind Number.toInt64?

def float? (v : Value) : Option Binary64 := v.number?.map Number.toFloat

/-- **The text of a text or number**; nothing else stands for a text. -/
def coerceString? : Value → Option String
  | string s => some s
  | number n => some n.text
  | _ => none

def integer (i : Int64) : Value := number (.integer i)

def float (x : Binary64) : Value := number (.float x)

end Value

namespace Key

def typeName : Key → String
  | integer _ => "number"
  | float _ => "number"
  | string _ => "string"
  | bool _ => "boolean"

/-- **The key of a double**: the integer it is, if it is one. -/
def ofFloat (x : Binary64) : Key :=
  match x.toInt64? with
  | some i => integer i
  | none => float x

def integer? : Key → Option Int64
  | integer i => some i
  | _ => none

def string? : Key → Option String
  | string s => some s
  | _ => none

/-- **The place in a sequence** that a key stands for, counted from one. -/
def place? : Key → Option Nat
  | integer i => if 0 < i.toInt then some i.toInt.toNat else none
  | _ => none

def ofPlace (n : Nat) : Key := integer (Int64.ofNat n)

/-- **The name that a key has as the member of a mapping.**  A truth value has none. -/
def name? : Key → Option String
  | string s => some s
  | integer i => some (Number.integerText i)
  | float x => some (Number.floatText x)
  | bool _ => none

def text : Key → String
  | integer i => Number.integerText i
  | float x => Number.floatText x
  | string s => s
  | bool b => if b then "true" else "false"

end Key
end Interchange
