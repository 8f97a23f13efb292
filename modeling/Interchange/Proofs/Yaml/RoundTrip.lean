import Interchange.Proofs.NormalForm
import Interchange.Proofs.Utf8
import Interchange.Yaml.Codec
/-!
# Round trip — tables in YAML

A text layer replays a document if it takes the text of it apart into the very same tree.  What is read then is the
normal form of the table: members that held nil are gone, numbers are doubles, and every string is what it spells.  Only
a name that spells null stands in the way, quoted or not (`Outline.document_ofDocument`).
-/
namespace Interchange
namespace Yaml

/-- A scalar as its text is taken apart. -/
def Scalar.atom : Scalar → Atom
  | null => .null
  | bool b => .bool b
  | integer i => .integer i.toInt
  | float x => .float x
  | string s => .text s.toList

/-- A scalar once it was written and read. -/
def Scalar.reread (a : Scalar) : Scalar := a.atom.scalar

/-- Whether one of some names spells null. -/
def anyNull (names : List String) : Bool := names.any fun name => spellsNull name.toList

@[simp] theorem anyNull_append (ns ms : List String) : anyNull (ns ++ ms) = (anyNull ns || anyNull ms) := List.any_append

@[simp] theorem anyNull_cons (n : String) (ns : List String) : anyNull (n :: ns) = (spellsNull n.toList || anyNull ns) :=
  rfl

theorem anyNull_eq_false {names : List String} :
    anyNull names = false ↔ ∀ name ∈ names, spellsNull name.toList = false := by
  rw [anyNull, List.any_eq_false]
  simp only [Bool.not_eq_true]

namespace Outline

mutual

/-- **The outline of a document**: the same tree, every scalar as its text is taken apart. -/
def ofDocument : Document Scalar → Outline
  | .scalar a => .scalar a.atom
  | .list items => .list (ofItems items)
  | .dict members => .dict (ofMembers members)

def ofItems : List (Document Scalar) → List Outline
  | [] => []
  | d :: ds => ofDocument d :: ofItems ds

def ofMembers : Members → List (Label × Outline)
  | [] => []
  | (name, d) :: ms => (.text name.toList, ofDocument d) :: ofMembers ms

end

mutual

/-- **A document is read from its own outline**, unless one of its names spells null. -/
theorem document_ofDocument : ∀ d : Document Scalar, (ofDocument d).document =
    if anyNull d.names then .error .badKey else .ok (d.map Scalar.reread)
  | .scalar a => rfl
  | .list items => by
    rw [ofDocument, document, itemDocuments_ofItems items, Document.names, Document.map]
    split <;> rfl
  | .dict members => by
    rw [ofDocument, document, memberDocuments_ofMembers members, Document.names, Document.map]
    split <;> rfl

theorem itemDocuments_ofItems : ∀ ds : List (Document Scalar), itemDocuments (ofItems ds) =
    if anyNull (Document.itemNames ds) then .error .badKey else .ok (Document.mapItems Scalar.reread ds)
  | [] => rfl
  | d :: ds => by
    rw [ofItems, itemDocuments, document_ofDocument d, itemDocuments_ofItems ds, Document.itemNames, anyNull_append]
    cases anyNull d.names <;> cases anyNull (Document.itemNames ds) <;> rfl

theorem memberDocuments_ofMembers : ∀ ms : Members, memberDocuments (ofMembers ms) =
    if anyNull (Document.memberNames ms) then .error .badKey else .ok (Document.mapMembers Scalar.reread ms)
  | [] => rfl
  | (name, d) :: ms => by
    rw [ofMembers, memberDocuments, document_ofDocument d, memberDocuments_ofMembers ms, Document.memberNames,
      anyNull_cons, anyNull_append, Label.name, String.ofList_toList]
    cases spellsNull name.toList <;> cases anyNull d.names <;> cases anyNull (Document.memberNames ms) <;> rfl

end

end Outline

/-- **A layer that replays a document**: its text, which is not empty, is taken apart into the very same tree, if lists and
dictionaries nest no deeper than the reader goes. -/
def TextLayer.Replays (layer : TextLayer) (d : Document Scalar) : Prop :=
  d.Fits (fun _ => True) Node.maxNesting → ∀ text, layer.emit d = .ok text →
    text ≠ [] ∧ layer.parse (Utf8.encode text) = ⟨.ofDocument d, true⟩

/-- **A layer that reads back a document**: it has a text, not empty, that is taken apart into the very same tree. -/
def TextLayer.ReadsBack (layer : TextLayer) (d : Document Scalar) : Prop :=
  ∃ text, layer.emit d = .ok text ∧ text ≠ [] ∧ layer.parse (Utf8.encode text) = ⟨.ofDocument d, true⟩

theorem TextLayer.Replays.readsBack {layer : TextLayer} {d : Document Scalar} (hreplays : layer.Replays d)
    (hfits : d.Fits (fun _ => True) Node.maxNesting) (hemit : ∃ cs, layer.emit d = .ok cs) : layer.ReadsBack d := by
  obtain ⟨cs, hcs⟩ := hemit
  exact ⟨cs, hcs, hreplays hfits cs hcs⟩

/-- What YAML makes of a leaf: a number becomes a double, and a string what it spells. -/
def leaf : Tree → Tree
  | .number n => .number (.float n.toFloat)
  | .string s => .ofLeaf (Scalar.ofText s.toList).value
  | t => t

end Yaml

/-- **The normal form of a tree in YAML.**  Entries that hold nil are left out. -/
def Tree.yaml (t : Tree) : Tree := t.normal Yaml.leaf false

namespace Yaml

theorem isTable_value (a : Scalar) : a.value.isTable = false := by cases a <;> rfl

theorem isTable_value_reread (a : Scalar) : ((Scalar.value ∘ Scalar.reread) a).isTable = false := isTable_value _

theorem dialect_gives : dialect.Gives fun _ => True :=
  ⟨fun _ _ => trivial, fun _ => trivial, fun _ => trivial, fun _ => trivial⟩

theorem tree_ofLeaf (t : Tree) (doc : Document Scalar) (ht : t.isTable = false) (h : dialect.ofLeaf t = .ok doc) :
    doc.tree (Scalar.value ∘ Scalar.reread) = leaf t := by
  cases t with
  | table es => cases ht
  | foreign kind handle => cases h
  | _ => cases h; rfl

/-- A text that is taken apart into a document is loaded with its scalars reread, unless one of its names spells null. -/
theorem readWith_of_parse {layer : TextLayer} {d : Document Scalar} {cs : List Char} (hne : cs ≠ [])
    (hparse : layer.parse (Utf8.encode cs) = ⟨.ofDocument d, true⟩) (h : Heap) :
    readWith layer h (Utf8.encode cs) = if anyNull d.names then .error .nonScalarKey
      else .ok (d.load (Scalar.value ∘ Scalar.reread) h) := by
  rw [readWith, Utf8.isEmpty_encode, if_neg (by rwa [List.isEmpty_iff]), hparse, Parsed.document,
    Outline.document_ofDocument]
  cases anyNull d.names with
  | true => rfl
  | false => exact congrArg Except.ok (Document.load_map Scalar.reread Scalar.value d h)

/-- **What becomes of a replayed document**: it is loaded with its scalars reread, unless one of its names spells null. -/
theorem TextLayer.Replays.readWith_eq {layer : TextLayer} {d : Document Scalar} (hreplays : layer.Replays d)
    (hfits : d.Fits (fun _ => True) Node.maxNesting) {text : String} (htext : layer.text d = .ok text) (h : Heap) :
    readWith layer h (Utf8.encode text.toList) = if anyNull d.names then .error .nonScalarKey
      else .ok (d.load (Scalar.value ∘ Scalar.reread) h) := by
  unfold TextLayer.text at htext
  split at htext
  · rename_i cs hcs
    cases htext
    obtain ⟨hne, hparse⟩ := hreplays hfits cs hcs
    rw [String.toList_ofList]
    exact readWith_of_parse hne hparse h
  · cases htext

/-- **The text of a table reads as the normal form of its tree**, if a text layer replays the document, tables nest no
deeper than the reader goes, and no name spells null. -/
theorem read_eq_yaml_of_write_ok {layer : TextLayer} {h : Heap} {options : Options} {root : TableId}
    {doc : Document Scalar} {text : String} (hdoc : dialect.encode h options root = .ok doc)
    (hreplays : layer.Replays doc) (hok : writeWith layer h options root = .ok text)
    (hnames : ∀ name ∈ doc.names, spellsNull name.toList = false) :
    ∃ t, h.tree? (.table root) = some t ∧ (t.height ≤ Node.maxNesting → ∀ h₀, ∃ id h',
      readWith layer h₀ (Utf8.encode text.toList) = .ok (.table id, h') ∧ h'.tree? (.table id) = some t.yaml) := by
  obtain ⟨t, ht, hof⟩ := Dialect.exists_tree_of_encode_ok _ hdoc
  refine ⟨t, ht, fun hheight h₀ => ?_⟩
  rw [writeWith, hdoc] at hok
  obtain ⟨id, h', hload, htree⟩ := dialect.exists_load isTable_value_reread tree_ofLeaf ht hof h₀
  refine ⟨id, h', ?_, htree⟩
  rw [hreplays.readWith_eq (dialect_gives.fits t hheight hof) hok, anyNull_eq_false.2 hnames, hload]
  rfl

/-- Texts that spell a number and a boolean, a double, and an entry that holds nil. -/
def spelled : Heap :=
  ⟨#[.ofPairs [(.integer 2, .string "12"), (.string "gone", .nil), (.string "list", .table ⟨1⟩)],
    .ofValues [.float ⟨0x3FF8000000000000⟩, .string "True"]]⟩

/-- Its document and the text of that. -/
def spelledDocument : Document Scalar :=
  .dict [("2", .scalar (.string "12")),
    ("list", .list [.scalar (.float ⟨0x3FF8000000000000⟩), .scalar (.string "True")])]

def spelledText : String := "'2': '12'\nlist:\n- 1.5\n- 'True'\n"

theorem standard_parse_encode {cs : List Char} (hcs : cs.all isAllowed = true) :
    TextLayer.standard.parse (Utf8.encode cs) = (Node.ofTokens (Token.ofText cs)).parsed := by
  unfold TextLayer.standard
  dsimp only
  rw [parse, Utf8.decode?_encode]
  exact if_pos hcs

theorem standard_replays_spelledDocument : TextLayer.standard.Replays spelledDocument := by
  have hprint : print spelledDocument = spelledText.toList := by decide +kernel
  have hne : spelledText.toList ≠ [] := by decide +kernel
  have hallowed : spelledText.toList.all isAllowed = true := by decide +kernel
  have htokens : Token.ofText spelledText.toList =
      [.blockMapping, .key, .scalar ['2'] false, .value, .scalar ['1', '2'] false, .key,
        .scalar ['l', 'i', 's', 't'] true, .value, .hyphen, .scalar ['1', '.', '5'] true, .hyphen,
        .scalar ['T', 'r', 'u', 'e'] false, .blockEnd, .textEnd] := by decide +kernel
  have hfloat : Atom.ofPlain ['1', '.', '5'] = .float ⟨0x3FF8000000000000⟩ := by decide +kernel
  intro _ text htext
  have htext' : print spelledDocument = text := Except.ok.inj htext
  rw [← htext', hprint]
  refine ⟨hne, (standard_parse_encode hallowed).trans ?_⟩
  rw [htokens]
  change Parsed.mk (.dict [(.text ['2'], .scalar (.text ['1', '2'])), (.text ['l', 'i', 's', 't'],
    .list [.scalar (.ofPlain ['1', '.', '5']), .scalar (.text ['T', 'r', 'u', 'e'])])]) true = _
  rw [hfloat]
  rfl

/-- Both texts come back as what they spell, and the entry that held nil is gone. -/
theorem read_eq_yaml_of_write_ok_spelled : writeWith .standard spelled .default ⟨0⟩ = .ok spelledText ∧
    ∀ h₀, ∃ id h', readWith .standard h₀ (Utf8.encode spelledText.toList) = .ok (.table id, h') ∧
      h'.tree? (.table id) = some (.table [(.string "2", .number (.integer 12)), (.string "list",
        .table [(.integer 1, .number (.float ⟨0x3FF8000000000000⟩)), (.integer 2, .bool true)])]) := by
  have hok : writeWith .standard spelled .default ⟨0⟩ = .ok spelledText := by decide +kernel
  have hdoc : dialect.encode spelled .default ⟨0⟩ = .ok spelledDocument := rfl
  obtain ⟨t, ht, hread⟩ := read_eq_yaml_of_write_ok hdoc standard_replays_spelledDocument hok (by decide +kernel)
  have htree : spelled.tree? (.table ⟨0⟩) = some (.table [(.integer 2, .string "12"), (.string "gone", .nil),
    (.string "list", .table [(.integer 1, .number (.float ⟨0x3FF8000000000000⟩)), (.integer 2, .string "True")])]) := rfl
  cases htree.symm.trans ht
  have h12 : Scalar.ofText "12".toList = .integer 12 := by decide +kernel
  have htrue : Scalar.ofText "True".toList = .bool true := by decide +kernel
  refine ⟨hok, fun h₀ => ?_⟩
  obtain ⟨id, h', hread, hyaml⟩ := hread (by decide) h₀
  refine ⟨id, h', hread, hyaml.trans ?_⟩
  change some (Tree.table [(.string "2", .ofLeaf (Scalar.ofText "12".toList).value), (.string "list", .table
    [(.integer 1, .number (.float ⟨0x3FF8000000000000⟩)), (.integer 2, .ofLeaf (Scalar.ofText "True".toList).value)])]) = _
  rw [h12, htrue]
  rfl

end Yaml
end Interchange
