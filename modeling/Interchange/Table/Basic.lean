import Interchange.Entries
import Interchange.Table.Value
/-!
# Tables — the contents behind an identity

A table is a list of entries with distinct keys.  Its **border** is the number of places 1, 2, … that hold something
before the first that does not; appending goes to the place after it.
-/
namespace Interchange

/-- Data of which some stands for nothing. -/
class HasNil (α : Type) where
  isNil : α → Bool

instance : HasNil Value := ⟨Value.isNil⟩

namespace Entries

variable {α : Type}

def place? (es : Entries Key α) (n : Nat) : Option α := (es.find? fun e => e.1.place? == some n).map Prod.snd

variable [HasNil α]

def holds (es : Entries Key α) (n : Nat) : Bool := (place? es n).any fun v => !HasNil.isNil v

/-- The border, if `n` places are known to hold something and at most `fuel` more can. -/
def borderFrom (es : Entries Key α) : (fuel n : Nat) → Nat
  | 0, n => n
  | fuel + 1, n => if holds es (n + 1) then borderFrom es fuel (n + 1) else n

/-- **The number of places that hold something before the first that does not.**  Each takes an entry, so their number is
at most the size. -/
def border (es : Entries Key α) : Nat := borderFrom es es.length 0

def sequence (es : Entries Key α) : List α := (List.range (border es)).filterMap fun i => place? es (i + 1)

end Entries

/-- The entries of a table, in order of first insertion. -/
structure Table where
  entries : Entries Key Value
  nodup : entries.keys.Nodup

namespace Table

def empty : Table := ⟨[], by simp [Entries.keys]⟩

instance : Inhabited Table := ⟨empty⟩

def ofPairs (pairs : List (Key × Value)) : Table := ⟨Entries.ofList pairs, Entries.nodup_keys_ofList⟩

/-- The values at the places 1, 2, … -/
def ofValues (vs : List Value) : Table := ofPairs (vs.mapIdx fun i v => (Key.ofPlace (i + 1), v))

def get? (t : Table) (k : Key) : Option Value := Entries.get? k t.entries

/-- The value at a key, nil if there is none. -/
def get (t : Table) (k : Key) : Value := (t.get? k).getD .nil

def contains (t : Table) (k : Key) : Bool := (t.get? k).isSome

def set (t : Table) (k : Key) (v : Value) : Table := ⟨Entries.set k v t.entries, Entries.nodup_keys_set t.nodup⟩

def erase (t : Table) (k : Key) : Table := ⟨Entries.erase k t.entries, Entries.nodup_keys_erase t.nodup⟩

def size (t : Table) : Nat := t.entries.length

def isEmpty (t : Table) : Bool := t.entries.isEmpty

/-- **The number of places that hold something before the first that does not.** -/
def border (t : Table) : Nat := Entries.border t.entries

def push (t : Table) (v : Value) : Table := t.set (.ofPlace (t.border + 1)) v

def sequence (t : Table) : List Value := Entries.sequence t.entries

end Table
end Interchange
