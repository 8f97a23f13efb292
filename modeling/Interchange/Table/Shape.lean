import Interchange.Table.Basic
/-!
# Shape — sequence or mapping

A table all of whose keys are places up to its border is a sequence; any other is a mapping of all its entries.
-/
namespace Interchange

/-- Data laid out as a sequence or as a mapping. -/
inductive Form (α : Type) where
  | sequence (items : List α)
  | mapping (entries : List (Key × α))
deriving DecidableEq

def Key.isDense (border : Nat) (k : Key) : Bool := k.place?.any (· ≤ border)

/-- **The form of entries.**  Items stand in the order of their places, entries in the order of insertion. -/
def Entries.form {α : Type} [HasNil α] (es : Entries Key α) : Form α :=
  if es.all fun e => e.1.isDense (border es) then .sequence (sequence es) else .mapping es

/-- The form of a table. -/
abbrev Shape := Form Value

/-- **The shape of a table.** -/
def Table.shape (t : Table) : Shape := Entries.form t.entries

end Interchange
