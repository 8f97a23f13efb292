import Interchange.Json.Codec
import Interchange.Proofs.Json.Text
import Interchange.Proofs.NormalForm
/-!
# Round trip — tables in JSON

The text of a table reads as its normal form: numbers keep their kind and their value, and a double without a value is
nil (`read_eq_json_of_write_ok`).
-/
namespace Interchange

namespace Json

/-- What JSON makes of a leaf: a double that is infinite or no number becomes nil. -/
def leaf : Tree → Tree
  | .number (.float x) => if x.isFinite then .number (.float x) else .nil
  | t => t

end Json

/-- **The normal form of a tree in JSON.**  Entries that hold nil stay. -/
def Tree.json (t : Tree) : Tree := t.normal Json.leaf true

namespace Json

theorem isTable_value (a : Scalar) : a.value.isTable = false := by cases a <;> rfl

theorem dialect_gives : dialect.Gives Scalar.IsFinite where
  null _ h := by cases h; trivial
  bool _ := trivial
  number n := by
    cases n with
    | integer i => trivial
    | float x =>
      show (if x.isFinite then Scalar.float x else .null).IsFinite
      split
      · assumption
      · trivial
  string _ := trivial

theorem tree_ofLeaf (t : Tree) (doc : Document Scalar) (ht : t.isTable = false) (h : dialect.ofLeaf t = .ok doc) :
    doc.tree Scalar.value = leaf t := by
  cases t with
  | table es => cases ht
  | number n =>
    cases h
    cases n with
    | integer i => rfl
    | float x =>
      show Document.tree _ (.scalar (if x.isFinite then Scalar.float x else .null)) = if x.isFinite then _ else _
      split <;> rfl
  | foreign kind handle => cases h
  | _ => cases h; rfl

theorem read_text {d : Document Scalar} (hd : d.Fits Scalar.IsFinite maxNesting) {options : Options} {s : String}
    (hs : text options d = .ok s) (h : Heap) : read h (Utf8.encode s.toList) = .ok (d.load Scalar.value h) := by
  have hparse := parse_print options.pretty hd
  cases hs
  rw [String.toList_ofList, read, hparse, if_neg]
  intro hempty
  rw [List.isEmpty_iff.1 hempty] at hparse
  cases hparse

/-- **The text of a table reads as the normal form of its tree**, in any layout and into any heap, if its tables nest no
deeper than the reader goes. -/
theorem read_eq_json_of_write_ok {h : Heap} {options : Options} {root : TableId} {text : String}
    (hok : write h options root = .ok text) :
    ∃ t, h.tree? (.table root) = some t ∧ (t.height ≤ maxNesting → ∀ h₀, ∃ id h',
      read h₀ (Utf8.encode text.toList) = .ok (.table id, h') ∧ h'.tree? (.table id) = some t.json) := by
  obtain ⟨doc, hdoc, htext⟩ := bind_eq_ok.1 hok
  obtain ⟨t, ht, hof⟩ := Dialect.exists_tree_of_encode_ok _ hdoc
  refine ⟨t, ht, fun hheight h₀ => ?_⟩
  obtain ⟨id, h', hload, htree⟩ := dialect.exists_load isTable_value tree_ofLeaf ht hof h₀
  exact ⟨id, h', (read_text (dialect_gives.fits t hheight hof) htext h₀).trans (congrArg Except.ok hload), htree⟩

/-- A name that an integer and a text have, and two doubles, one without a value. -/
def twice : Heap :=
  ⟨#[.ofPairs [(.integer 2, .bool true), (.string "b", .float ⟨0x3FF8000000000000⟩), (.string "2", .float .nan)]]⟩

/-- The name stands once, with its last value. -/
theorem read_eq_json_of_write_ok_twice :
    write twice .readable ⟨0⟩ = .ok "\x7b\n  \"2\": null,\n  \"b\": 1.5\n\x7d" ∧
    ∀ h₀, ∃ id h', read h₀ (Utf8.encode "\x7b\n  \"2\": null,\n  \"b\": 1.5\n\x7d".toList) = .ok (.table id, h') ∧
      h'.tree? (.table id) = some (.table [(.string "2", .nil), (.string "b", .number (.float ⟨0x3FF8000000000000⟩))]) := by
  have hok : write twice .readable ⟨0⟩ = .ok "\x7b\n  \"2\": null,\n  \"b\": 1.5\n\x7d" := by decide +kernel
  obtain ⟨t, ht, hread⟩ := read_eq_json_of_write_ok hok
  have htree : twice.tree? (.table ⟨0⟩) = some (.table [(.integer 2, .bool true),
    (.string "b", .number (.float ⟨0x3FF8000000000000⟩)), (.string "2", .number (.float .nan))]) := rfl
  cases htree.symm.trans ht
  exact ⟨hok, hread (by decide)⟩

end Json
end Interchange
