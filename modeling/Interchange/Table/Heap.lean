import Interchange.Error
import Interchange.Table.Shape
/-!
# Heap — tables by identity

A heap holds the contents of every table.  Handles are identities, so tables can be shared and can contain themselves.
-/
namespace Interchange

structure Heap where
  tables : Array Table

namespace Heap

def empty : Heap := ⟨#[]⟩

def size (h : Heap) : Nat := h.tables.size

/-- The contents of a table; an identity that is not in use has none. -/
def get (h : Heap) (id : TableId) : Table := (h.tables[id.index]?).getD .empty

/-- **A new table** with the given contents. -/
def alloc (h : Heap) (t : Table) : TableId × Heap := (⟨h.tables.size⟩, ⟨h.tables.push t⟩)

def modify (h : Heap) (id : TableId) (f : Table → Table) : Heap := ⟨h.tables.modify id.index f⟩

/-- Set a key; the value before is returned. -/
def set (h : Heap) (id : TableId) (k : Key) (v : Value) : Option Value × Heap :=
  ((h.get id).get? k, h.modify id (·.set k v))

/-- Remove a key; the value before is returned. -/
def erase (h : Heap) (id : TableId) (k : Key) : Option Value × Heap :=
  ((h.get id).get? k, h.modify id (·.erase k))

def push (h : Heap) (id : TableId) (v : Value) : Heap := h.modify id (·.push v)

/-- Two values as the same data, where tables may be compared through at most `fuel` levels.  A table is itself; other
tables are equal when they have as many entries and every entry of the one is in the other. -/
def equalWithin (h : Heap) : (fuel : Nat) → Value → Value → Bool
  | fuel, .table a, .table b =>
    a == b ||
      match fuel with
      | 0 => false
      | fuel + 1 =>
        let s := h.get a
        let t := h.get b
        s.size == t.size && s.entries.all fun e =>
          match t.get? e.1 with
          | some v => h.equalWithin fuel v e.2
          | none => false
  | _, .number m, .number n => m.numericEq n
  | _, v, w => v == w

/-- **Equality of values as data**, whatever the order of entries and the identity of tables.  Tables that contain each
other without end nest deeper than there are tables, and are not equal. -/
def equal (h : Heap) (v w : Value) : Bool := h.equalWithin (h.size + 1) v w

end Heap

namespace Value

def toInt64 (v : Value) : Except Error Int64 :=
  match v.int64? with
  | some i => .ok i
  | none => .error (.typeMismatch "an integer" v.typeName)

def toFloat (v : Value) : Except Error Binary64 :=
  match v.float? with
  | some x => .ok x
  | none => .error (.typeMismatch "a number" v.typeName)

def toBool (v : Value) : Except Error Bool :=
  match v with
  | bool b => .ok b
  | v => .error (.typeMismatch "a boolean" v.typeName)

def toText (v : Value) : Except Error String :=
  match v with
  | string s => .ok s
  | v => .error (.typeMismatch "a string" v.typeName)

def toTable (v : Value) : Except Error TableId :=
  match v with
  | table id => .ok id
  | v => .error (.typeMismatch "a table" v.typeName)

end Value
end Interchange
