import Interchange.Options
import Interchange.Table.Guard
/-!
# Documents — trees between tables and text

A document is a tree of lists and dictionaries over the scalars of a format.  Writing a table first walks the heap into
a document, which fixes every name, order and error; printing it cannot fail.  Reading builds a document from text, and
loading it makes fresh tables.
-/
namespace Interchange

/-- A tree of lists and dictionaries over scalars. -/
inductive Document (α : Type) where
  | scalar (a : α)
  | list (items : List (Document α))
  | dict (members : List (String × Document α))

namespace Document

variable {α : Type}

mutual

/-- **Load a document into a heap**: every list and dictionary becomes a new table.  A list has the keys 1, 2, …; a
dictionary has the names as keys, a repeated one with its first place and its last value. -/
def load (leaf : α → Value) : Document α → Heap → Value × Heap
  | .scalar a, h => (leaf a, h)
  | .list items, h =>
    let (vs, h) := loadItems leaf items h
    let (id, h) := h.alloc (.ofValues vs)
    (.table id, h)
  | .dict members, h =>
    let (es, h) := loadMembers leaf members h
    let (id, h) := h.alloc (.ofPairs es)
    (.table id, h)

def loadItems (leaf : α → Value) : List (Document α) → Heap → List Value × Heap
  | [], h => ([], h)
  | d :: ds, h =>
    let (v, h) := load leaf d h
    let (vs, h) := loadItems leaf ds h
    (v :: vs, h)

def loadMembers (leaf : α → Value) : List (String × Document α) → Heap → List (Key × Value) × Heap
  | [], h => ([], h)
  | (name, d) :: ds, h =>
    let (v, h) := load leaf d h
    let (es, h) := loadMembers leaf ds h
    ((.string name, v) :: es, h)

end

/-! ## Equality -/

mutual

def decEq [DecidableEq α] : (d e : Document α) → Decidable (d = e)
  | .scalar a, .scalar b => decidable_of_iff (a = b) (by simp)
  | .list ds, .list es => @decidable_of_iff _ (ds = es) (by simp) (decEqItems ds es)
  | .dict ms, .dict ns => @decidable_of_iff _ (ms = ns) (by simp) (decEqMembers ms ns)
  | .scalar _, .list _ | .scalar _, .dict _ | .list _, .scalar _ | .list _, .dict _ | .dict _, .scalar _
  | .dict _, .list _ => isFalse nofun

def decEqItems [DecidableEq α] : (ds es : List (Document α)) → Decidable (ds = es)
  | [], [] => isTrue rfl
  | d :: ds, e :: es =>
    @decidable_of_iff _ (d = e ∧ ds = es) (by simp) (@instDecidableAnd _ _ (decEq d e) (decEqItems ds es))
  | [], _ :: _ | _ :: _, [] => isFalse nofun

def decEqMembers [DecidableEq α] : (ms ns : List (String × Document α)) → Decidable (ms = ns)
  | [], [] => isTrue rfl
  | (m, d) :: ms, (n, e) :: ns =>
    @decidable_of_iff _ (m = n ∧ d = e ∧ ms = ns) (by simp [and_assoc])
      (@instDecidableAnd _ _ _ (@instDecidableAnd _ _ (decEq d e) (decEqMembers ms ns)))
  | [], _ :: _ | _ :: _, [] => isFalse nofun

end

instance [DecidableEq α] : DecidableEq (Document α) := decEq

end Document

/-- **How a format takes the values of a table.** -/
structure Dialect (α : Type) where
  format : Format
  /-- The scalar for nil, if there is one. -/
  null : Option α
  bool : Bool → α
  number : Number → α
  string : String → α
  /-- Whether an entry that holds nil is a member of its dictionary. -/
  keepsNil : Bool
  /-- The error for a key without a name. -/
  badKey : String → Error

namespace Dialect

variable {α : Type} (d : Dialect α)

/-- A value, given how tables are encoded. -/
def encodeValue (table : TableId → Except Error (Document α)) : Value → Except Error (Document α)
  | .nil =>
    match d.null with
    | some a => .ok (.scalar a)
    | none => .error (.unsupportedValueType d.format Value.nil.typeName)
  | .bool b => .ok (.scalar (d.bool b))
  | .number n => .ok (.scalar (d.number n))
  | .string s => .ok (.scalar (d.string s))
  | .table id => table id
  | .foreign kind _ => .error (.unsupportedValueType d.format kind)

/-- Items in order, up to the first error. -/
def encodeItems {β : Type} (value : β → Except Error (Document α)) : List β → Except Error (List (Document α))
  | [] => .ok []
  | v :: vs => do
    let item ← value v
    let items ← encodeItems value vs
    return item :: items

/-- Entries in order, up to the first error, onto members already there.  The name of a key is needed even where the
entry is left out. -/
def encodeEntries {β : Type} [HasNil β] (value : β → Except Error (Document α))
    (members : Entries String (Document α)) : List (Key × β) → Except Error (Entries String (Document α))
  | [] => .ok members
  | (k, v) :: es =>
    match k.name? with
    | none => .error (d.badKey k.typeName)
    | some name =>
      if HasNil.isNil v && !d.keepsNil then encodeEntries value members es
      else do
        let member ← value v
        encodeEntries value (members.set name member) es

/-- Data by its form: a list of its items, or a dictionary of its entries. -/
def encodeForm {β : Type} [HasNil β] (value : β → Except Error (Document α)) : Form β → Except Error (Document α)
  | .sequence items => return .list (← encodeItems value items)
  | .mapping entries => return .dict (← d.encodeEntries value [] entries)

/-- A table under open ones.  At most `room` more tables can be opened, and `stuck` is the error for one beyond. -/
def encodeTable (stuck : Error) (h : Heap) : (room : Nat) → Guard → TableId → Except Error (Document α)
  | 0, _, _ => .error stuck
  | room + 1, guard, id => do
    let guard ← guard.enter id
    d.encodeForm (d.encodeValue (encodeTable stuck h room guard)) (h.get id).shape

/-- The document of a table under which at most `room` more tables can be opened. -/
def encodeWithin (stuck : Error) (h : Heap) (room : Nat) (options : Options) (root : TableId) :
    Except Error (Document α) :=
  d.encodeTable stuck h (room + 1) (.new options.maxDepth) root

/-- The members of a table that is a mapping whatever its shape, under which at most `room` more tables can be opened. -/
def encodeMappingWithin (stuck : Error) (h : Heap) (room : Nat) (options : Options) (root : TableId) :
    Except Error (List (String × Document α)) := do
  let guard ← (Guard.new options.maxDepth).enter root
  d.encodeEntries (d.encodeValue (d.encodeTable stuck h room guard)) [] (h.get root).entries

/-- **The document of a table.**  Open tables are distinct and only the innermost can be unknown to the heap, so as many
as the heap has can be opened under the root; a longer path would have to close a cycle. -/
def encode (h : Heap) (options : Options) (root : TableId) : Except Error (Document α) :=
  d.encodeWithin .cyclicStructure h h.size options root

/-- **The document of a table that is a mapping whatever its shape.** -/
def encodeMapping (h : Heap) (options : Options) (root : TableId) : Except Error (List (String × Document α)) :=
  d.encodeMappingWithin .cyclicStructure h h.size options root

end Dialect
end Interchange
