import Interchange.Options
import Interchange.Table.Guard
import Interchange.Text.Blank
/-!
# Elements — the data of an element record

An element record is a table with a tag, a table of attributes, a text and a sequence of child records.  An element is
that record taken apart: reading it from the heap fixes every error, and printing it cannot fail.
-/
namespace Interchange
namespace Xml

inductive Element where
  | mk (tag : String) (attributes : List (String × String)) (text : String) (children : List Element)

namespace Element

def tag : Element → String
  | mk tag _ _ _ => tag

def attributes : Element → List (String × String)
  | mk _ attributes _ _ => attributes

def text : Element → String
  | mk _ _ text _ => text

def children : Element → List Element
  | mk _ _ _ children => children

/-! ## From records -/

def field (record : Table) (name : String) : Value := record.get (.string name)

def tagOf (record : Table) : Except Error String :=
  match (field record "tag").coerceString? with
  | some tag => if tag.isEmpty then .error .tagMissing else .ok tag
  | none => .error .tagMissing

/-- The attribute entries of a record; none without the field. -/
def attributeEntries (h : Heap) (record : Table) : Except Error (List (Key × Value)) :=
  match field record "attr" with
  | .nil => .ok []
  | .table id => .ok (h.get id).entries
  | v => .error (.fieldType "attr" "a table" v.typeName)

/-- The text of a record; empty without the field. -/
def textOf (record : Table) : Except Error String :=
  match field record "text" with
  | .nil => .ok ""
  | v =>
    match v.coerceString? with
    | some text => .ok text
    | none => .error (.fieldType "text" "a string" v.typeName)

/-- The children of a record: the values up to the border of their table. -/
def childValues (h : Heap) (record : Table) : Except Error (List Value) :=
  match field record "children" with
  | .nil => .ok []
  | .table id => .ok (h.get id).sequence
  | v => .error (.childrenType v.typeName)

/-- The attributes of entries, up to the first that is none. -/
def attributesOf : List (Key × Value) → Except Error (List (String × String))
  | [] => .ok []
  | (k, v) :: es =>
    match k.name? with
    | none => .error (.attrKeyType k.typeName)
    | some name =>
      match v.coerceString? with
      | none => .error (.attrValueType v.typeName)
      | some value => do
        let rest ← attributesOf es
        return (name, value) :: rest

/-- The children of values, given how records are read, up to the first error. -/
def childrenOf (record : TableId → Except Error Element) : List Value → Except Error (List Element)
  | [] => .ok []
  | .table id :: vs => do
    let child ← record id
    let rest ← childrenOf record vs
    return child :: rest
  | v :: _ => .error (.childrenType v.typeName)

/-- The element of a record under open ones.  At most `room` more can be opened, and `stuck` is the error for one beyond. -/
def ofRecordWithin (stuck : Error) (h : Heap) : (room : Nat) → Guard → TableId → Except Error Element
  | 0, _, _ => .error stuck
  | room + 1, guard, id => do
    let guard ← guard.enter id
    let record := h.get id
    let tag ← tagOf record
    let entries ← attributeEntries h record
    let text ← textOf record
    let values ← childValues h record
    let attributes ← attributesOf entries
    let children ← childrenOf (ofRecordWithin stuck h room guard) values
    return mk tag attributes text children

/-- **The element of a record.**  Only records count as open: a cycle through attributes is none. -/
def ofRecord (h : Heap) (options : Options) (root : TableId) : Except Error Element :=
  ofRecordWithin .cyclicStructure h (h.size + 1) (.new options.maxDepth) root

/-! ## To records -/

def isBlankText (s : String) : Bool := s.toList.all isWhiteSpace

/-- The entries of a record, its attributes and children being tables already. -/
def recordEntries (tag text : String) (attr children : TableId) : List (Key × Value) :=
  [(.string "tag", .string tag), (.string "attr", .table attr)]
    ++ (if isBlankText text then [] else [(.string "text", .string text)])
    ++ [(.string "children", .table children)]

mutual

/-- **Load an element into a heap** as a new record.  A repeated attribute has its first place and its last value. -/
def load : Element → Heap → TableId × Heap
  | mk tag attributes text children, h =>
    let (attr, h) := h.alloc (.ofPairs (attributes.map fun a => (.string a.1, .string a.2)))
    let (ids, h) := loadAll children h
    let (children, h) := h.alloc (.ofValues (ids.map .table))
    h.alloc (.ofPairs (recordEntries tag text attr children))

def loadAll : List Element → Heap → List TableId × Heap
  | [], h => ([], h)
  | e :: es, h =>
    let (id, h) := load e h
    let (ids, h) := loadAll es h
    (id :: ids, h)

end

end Element
end Xml
end Interchange
