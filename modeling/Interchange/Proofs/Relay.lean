import Interchange.Proofs.Acceptance
import Interchange.Proofs.Common
import Interchange.Proofs.Growth
/-!
# Relay — tables through a path of formats

To relay a table is to write it in a format and to read the text back.  That each table read is equal to the one before
does not make the last equal to the first: several integers are equal to one double and not to each other.  What goes on
from step to step is that the tree of the first table is carried on, so every table read is equal to the first
(`Format.relayAlong_equal`).
-/
namespace Interchange

/-! ## Tables that stay -/

namespace Heap

/-- A table from which only tables of the heap are reached. -/
def IsClosed (h : Heap) (root : TableId) : Prop := ∀ a, h.Reaches root a → a.index < h.size

theorem Extends.get_eq {h h' : Heap} (hext : h.Extends h') {a : TableId} (ha : a.index < h.size) : h'.get a = h.get a := by
  have ht : h.tables[a.index]? = some h.tables[a.index] := Array.getElem?_eq_getElem ha
  rw [get, get, hext _ _ ht, ht]

theorem IsClosed.unfold_eq_some {h h' : Heap} {root : TableId} (hclosed : h.IsClosed root) (hext : h.Extends h') :
    ∀ {n : Nat} {a : TableId} {t : Tree}, h.Reaches root a → h.unfold n (.table a) = some t →
      h'.unfold n (.table a) = some t
  | 0, _, _, _, ht => nomatch ht
  | n + 1, a, t, ha, ht => by
    obtain ⟨ts, rfl, hts⟩ := unfold_table.1 ht
    refine unfold_table.2 ⟨ts, rfl, ?_⟩
    rw [hext.get_eq (hclosed a ha)]
    refine hts.imp fun e he t ht => ?_
    obtain ⟨k, v⟩ := e
    cases v with
    | table b => exact hclosed.unfold_eq_some hext (ha.tail ⟨k, he⟩) ht
    | _ => rw [unfold] at ht ⊢; exact ht

/-- **A closed table keeps its tree in every later heap.** -/
theorem IsClosed.tree?_eq_some {h h' : Heap} {root : TableId} (hclosed : h.IsClosed root) (hext : h.Extends h') {t : Tree}
    (ht : h.tree? (.table root) = some t) : h'.tree? (.table root) = some t :=
  tree?_of_unfold (hclosed.unfold_eq_some hext .refl ht)

end Heap

/-! ## One step -/

namespace Format

/-- **Write a table in a format and read the text back**, its tables new in the heap. -/
def relay (layers : TextLayers) (options : Options) (format : Format) (h : Heap) (root : TableId) :
    Except Error (TableId × Heap) := do
  let text ← format.writeWith layers h options root
  let (v, h) ← format.readWith layers h (Utf8.encode text.toList)
  return (← v.toTable, h)

/-- **Relay a table along a path of formats**: what is read in one is written in the next.  The tables read, each with the
heap at that point. -/
def relayAlong (layers : TextLayers) (options : Options) : List Format → Heap → TableId →
    Except Error (List (TableId × Heap))
  | [], _, _ => .ok []
  | format :: path, h, root => do
    let read ← format.relay layers options h root
    return read :: (← relayAlong layers options path read.2 read.1)

theorem relay_eq_ok {layers : TextLayers} {options : Options} {format : Format} {h h' : Heap} {root id : TableId}
    {text : String} (hwrite : format.writeWith layers h options root = .ok text)
    (hread : format.readWith layers h (Utf8.encode text.toList) = .ok (.table id, h')) :
    format.relay layers options h root = .ok (id, h') := by
  rw [relay, hwrite, ok_bind, hread]
  rfl

end Format

/-- **Text layers that write the documents of a tree, wherever it is carried on, and replay them.** -/
structure TextLayers.Relays (layers : TextLayers) (pretty : Bool) (t : Tree) : Prop where
  yaml : ∀ u doc, t.Carried u → u.Distinct → Yaml.dialect.ofTree u = .ok doc →
    (∃ cs, layers.yaml.emit doc = .ok cs) ∧ layers.yaml.Replays doc
  toml : ∀ u ms, t.Carried u → u.Distinct → Toml.dialect.membersOfTree u = .ok ms →
    (∃ cs, layers.toml.emit pretty ms = .ok cs) ∧ layers.toml.Replays pretty ms

/-- A later heap with a table in it that carries a tree on. -/
def Heap.Carries (h : Heap) (t : Tree) (r : TableId × Heap) : Prop :=
  h.Extends r.2 ∧ ∃ u, r.2.tree? (.table r.1) = some u ∧ t.Carried u

/-- **A tree that can go through every format**: its data is common to them, its root is a mapping that is not empty, and
it nests no deeper than any reader goes. -/
structure Tree.IsPortable (es : List (Key × Tree)) : Prop where
  common : (Tree.table es).IsCommon
  named : IsNamed es
  ne_nil : es ≠ []
  height_le : ∀ format : Format, ∀ n ∈ format.maxNesting?, (Tree.table es).height ≤ n

section

variable {layers : TextLayers} {options : Options} {h : Heap} {root : TableId} (hm : options.maxDepth = none)
include hm

/-- **A table whose document is read back** is relayed in YAML to its normal form, which stays. -/
theorem Yaml.exists_relay_of_readsBack {t : Tree} (ht : h.tree? (.table root) = some t) {doc : Document Scalar}
    (hdoc : dialect.ofTree t = .ok doc) (hnames : ∀ name ∈ doc.names, spellsNull name.toList = false)
    (hback : layers.yaml.ReadsBack doc) : ∃ r, Format.yaml.relay layers options h root = .ok r ∧ h.Extends r.2 ∧
      ∀ h', r.2.Extends h' → h'.tree? (.table r.1) = some t.yaml := by
  obtain ⟨cs, hemit, hne, hparse⟩ := hback
  have hwrite : writeWith layers.yaml h options root = .ok (String.ofList cs) := by
    rw [writeWith, Dialect.encode_eq_ofTree _ hm ht, hdoc, ok_bind, TextLayer.text, hemit]
  obtain ⟨id, h', hload, hext, htree⟩ := dialect.exists_load_extends isTable_value_reread tree_ofLeaf ht hdoc h
  have hread : readWith layers.yaml h (Utf8.encode (String.ofList cs).toList) = .ok (.table id, h') := by
    rw [String.toList_ofList, readWith_of_parse hne hparse, anyNull_eq_false.2 hnames, hload]
    rfl
  exact ⟨(id, h'), Format.relay_eq_ok hwrite hread, hext, htree⟩

/-- **A table whose members are read back** is relayed in TOML to data that is alike to its normal form, unless there are
none. -/
theorem Toml.exists_relay_of_readsBack {es : List (Key × Tree)} (ht : h.tree? (.table root) = some (.table es))
    {ms : Members} (hms : dialect.membersOfTree (.table es) = .ok ms) (hne : ms ≠ [])
    (hback : layers.toml.ReadsBack options.pretty ms) : ∃ r u, Format.toml.relay layers options h root = .ok r ∧
      h.Extends r.2 ∧ r.2.tree? (.table r.1) = some u ∧ (Tree.table es).toml.Alike u := by
  obtain ⟨cs, hemit, hempty, ms', hparse, hreordered⟩ := hback
  have hwrite : writeWith layers.toml h options root = .ok (String.ofList cs) := by
    rw [writeWith, Dialect.encodeMapping_eq_membersOfTree _ hm ht, hms, ok_bind, TextLayer.text, hemit]
  have hread : readWith layers.toml h (Utf8.encode (String.ofList cs).toList) =
      .ok ((Document.dict ms').load Scalar.value h) := by
    rw [String.toList_ofList]
    exact readWith_of_parse (fun hcs => hne (hempty.1 hcs)) hparse h
  have halike := Document.Reordered.alike Scalar.Agrees.alike _ (dialect.distinct_membersOfTree hms) _ hreordered
  rw [tree_dict hms] at halike
  obtain ⟨hext, htree⟩ := Document.tree?_load isTable_value (.dict ms') h
  exact ⟨_, _, Format.relay_eq_ok hwrite hread, hext, htree _ (.refl _), halike⟩

end

section

variable {layers : TextLayers} {options : Options} {h : Heap} {root : TableId} {es : List (Key × Tree)}
  (hp : Tree.IsPortable es) (hm : options.maxDepth = none) (ht : h.tree? (.table root) = some (.table es))
include hp hm ht

theorem Json.exists_relay_ok : ∃ r, Format.json.relay layers options h root = .ok r ∧ h.Carries (.table es) r := by
  obtain ⟨doc, hdoc⟩ := hp.common.exists_ofTree_ok dialect
  have hwrite : write h options root = text options doc := by
    rw [write, Dialect.encode_eq_ofTree _ hm ht, hdoc, ok_bind]
  have htext : text options doc = .ok (String.ofList (print options.pretty doc)) := rfl
  have hread := read_text (dialect_gives.fits _ (hp.height_le .json _ rfl) hdoc) htext h
  obtain ⟨id, h', hload, hext, htree⟩ := dialect.exists_load_extends isTable_value tree_ofLeaf ht hdoc h
  rw [hload] at hread
  have hcarried := hp.common.carried_json (Heap.distinct_of_unfold ht)
  exact ⟨(id, h'), Format.relay_eq_ok hwrite hread, hext, _, htree _ (.refl _), hcarried⟩

theorem Yaml.exists_relay_ok (hlayers : layers.Relays options.pretty (.table es)) :
    ∃ r, Format.yaml.relay layers options h root = .ok r ∧ h.Carries (.table es) r := by
  have hdistinct := Heap.distinct_of_unfold ht
  obtain ⟨doc, hdoc⟩ := hp.common.exists_ofTree_ok dialect
  obtain ⟨hemit, hreplays⟩ := hlayers.yaml _ _ (.refl hdistinct) hdistinct hdoc
  have hback := hreplays.readsBack (dialect_gives.fits _ (hp.height_le .yaml _ rfl) hdoc) hemit
  obtain ⟨r, hrelay, hext, htree⟩ := exists_relay_of_readsBack hm ht hdoc (hp.common.spellsNull_eq_false dialect hdoc) hback
  exact ⟨r, hrelay, hext, _, htree _ (.refl _), hp.common.carried_yaml hdistinct⟩

theorem Toml.exists_relay_ok (hlayers : layers.Relays options.pretty (.table es)) :
    ∃ r, Format.toml.relay layers options h root = .ok r ∧ h.Carries (.table es) r := by
  have hdistinct := Heap.distinct_of_unfold ht
  obtain ⟨ms, hms⟩ := hp.common.exists_membersOfTree_ok dialect
  obtain ⟨hemit, hreplays⟩ := hlayers.toml _ _ (.refl hdistinct) hdistinct hms
  have hback := hreplays.readsBack (dialect_gives.fits_membersOfTree (hp.height_le .toml _ rfl) hms) hemit
  have hne : ms ≠ [] := fun hempty => by
    obtain ⟨e, he⟩ := List.exists_mem_of_ne_nil es hp.ne_nil
    have hnil := ((dialect.encodeEntries_eq_nil rfl hms).1 hempty).2 e he
    rw [(hp.common.of_table.2 e he).isNil_eq_false] at hnil
    cases hnil
  obtain ⟨r, u, hrelay, hext, htree, halike⟩ := exists_relay_of_readsBack hm ht hms hne hback
  have hcarried := hp.common.carried_toml hdistinct hp.named
  exact ⟨r, hrelay, hext, u, htree, hcarried.trans (halike.carried (hcarried.isNumeric hp.common.isNumeric))⟩

theorem Format.exists_relay_ok (hlayers : layers.Relays options.pretty (.table es)) {format : Format} (hf : format ≠ xml) :
    ∃ r, format.relay layers options h root = .ok r ∧ h.Carries (.table es) r := by
  cases format with
  | json => exact Json.exists_relay_ok hp hm ht
  | yaml => exact Yaml.exists_relay_ok hp hm ht hlayers
  | toml => exact Toml.exists_relay_ok hp hm ht hlayers
  | xml => exact absurd rfl hf

end

/-! ## The run -/

theorem TextLayers.Relays.of_carried {layers : TextLayers} {pretty : Bool} {t u : Tree} (h : layers.Relays pretty t)
    (htu : t.Carried u) : layers.Relays pretty u where
  yaml v doc huv := h.yaml v doc (htu.trans huv)
  toml v ms huv := h.toml v ms (htu.trans huv)

theorem Tree.IsPortable.of_carried {es fs : List (Key × Tree)} (hp : IsPortable es)
    (hcarried : (Tree.table es).Carried (.table fs)) (hes : (Tree.table es).Distinct) (hfs : (Tree.table fs).Distinct) :
    IsPortable fs where
  common := hp.common.of_carried hcarried hes hfs
  named k hk := by
    cases hcarried with
    | leaf h => cases h
    | table hkeys _ => exact hp.named k ((hkeys k).2 hk)
  ne_nil := by
    rintro rfl
    obtain ⟨e, he⟩ := List.exists_mem_of_ne_nil es hp.ne_nil
    cases hcarried with
    | leaf h => cases h
    | table hkeys _ => cases (hkeys e.1).1 (Entries.mem_keys_of_mem he)
  height_le format n hn := hcarried.height_le.trans (hp.height_le format n hn)

namespace Format

/-- **What is read along a path carries on the tree of the table that was written first.** -/
theorem exists_relayAlong_ok {layers : TextLayers} {options : Options} (hm : options.maxDepth = none)
    {path : List Format} (hpath : ∀ format ∈ path, format ≠ xml) : ∀ {h : Heap} {root : TableId} {es : List (Key × Tree)},
      Tree.IsPortable es → layers.Relays options.pretty (.table es) → h.tree? (.table root) = some (.table es) →
        ∃ read, relayAlong layers options path h root = .ok read ∧ read.length = path.length ∧
          ∀ r ∈ read, h.Carries (.table es) r := by
  -- on the path, for every table: the rest of it is taken by the table read here, which carries the first one on
  induction path with
  | nil => exact fun _ _ _ => ⟨[], rfl, rfl, List.forall_mem_nil _⟩
  | cons format path ih =>
    intro h root es hp hlayers ht
    obtain ⟨r, hrelay, hext, u, hu, hcarried⟩ := exists_relay_ok hp hm ht hlayers (hpath format List.mem_cons_self)
    obtain ⟨fs, rfl, -⟩ := Heap.unfold_table.1 hu
    have hp' := hp.of_carried hcarried (Heap.distinct_of_unfold ht) (Heap.distinct_of_unfold hu)
    obtain ⟨read, hread, hlen, hall⟩ := ih (fun format hf => hpath format (List.mem_cons_of_mem _ hf)) hp'
      (hlayers.of_carried hcarried) hu
    refine ⟨r :: read, ?_, congrArg (· + 1) hlen, List.forall_mem_cons.2 ⟨⟨hext, _, hu, hcarried⟩, fun r hr => ?_⟩⟩
    · rw [relayAlong, hrelay, ok_bind, hread]
      rfl
    · obtain ⟨hext', v, hv, hcarried'⟩ := hall r hr
      exact ⟨hext.trans hext', v, hv, hcarried.trans hcarried'⟩

/-- **Tables of common data go through any path of JSON, YAML and TOML.**  Every step succeeds, and at every point the table
that was read is equal to the first one, either way round, in the heap at that point. -/
theorem relayAlong_equal {layers : TextLayers} {options : Options} (hm : options.maxDepth = none) {h : Heap}
    {root : TableId} (hclosed : h.IsClosed root) {es : List (Key × Tree)} (ht : h.tree? (.table root) = some (.table es))
    (hp : Tree.IsPortable es) (hlayers : layers.Relays options.pretty (.table es)) (path : List Format)
    (hpath : ∀ format ∈ path, format ≠ xml) :
    ∃ read, relayAlong layers options path h root = .ok read ∧ read.length = path.length ∧
      ∀ r ∈ read, r.2.equal (.table r.1) (.table root) = true ∧ r.2.equal (.table root) (.table r.1) = true := by
  obtain ⟨read, hread, hlen, hall⟩ := exists_relayAlong_ok hm hpath hp hlayers ht
  refine ⟨read, hread, hlen, fun r hr => ?_⟩
  obtain ⟨hext, u, hu, hcarried⟩ := hall r hr
  exact (Heap.equal_of_carried (hclosed.tree?_eq_some hext ht) hu hcarried hp.common.isNumeric).symm

/-- A list of an integer that is no double. -/
def ledger : Heap := ⟨#[.ofPairs [(.string "list", .table ⟨1⟩)], .ofValues [.integer 9007199254740993]]⟩

theorem eq_of_ledger_reaches {a : TableId} (h : ledger.Reaches ⟨0⟩ a) : a = ⟨0⟩ ∨ a = ⟨1⟩ := by
  induction h with
  | refl => exact .inl rfl
  | tail _ hchild ih =>
    obtain ⟨k, hk⟩ := hchild
    rcases ih with rfl | rfl
    · cases List.mem_singleton.1 hk
      exact .inr rfl
    · cases List.mem_singleton.1 hk

/-- The list with a number in it. -/
def ledgerEntries (n : Number) : List (Key × Tree) := [(.string "list", .table [(.integer 1, .number n)])]

def ledgerYaml : Document Yaml.Scalar := .dict [("list", .list [.scalar (.float ⟨0x4340000000000000⟩)])]

def ledgerToml : Toml.Members := [("list", .list [.scalar (.float ⟨0x4340000000000000⟩)])]

theorem toFloat_ledger : (Number.integer 9007199254740993).toFloat = ⟨0x4340000000000000⟩ := by decide +kernel

theorem eq_of_carried_ledger {u : Tree} (h : (Tree.table (ledgerEntries (.integer 9007199254740993))).Carried u)
    (hu : u.Distinct) : ∃ n, u = .table (ledgerEntries n) ∧ n.toFloat = ⟨0x4340000000000000⟩ := by
  obtain ⟨t, rfl, ht, htd⟩ := h.of_singleton hu
  obtain ⟨u, rfl, hu, -⟩ := ht.of_singleton htd
  cases hu with
  | leaf => exact ⟨_, rfl, toFloat_ledger⟩
  | number => exact ⟨_, rfl, toFloat_ledger⟩

theorem standard_replays_ledgerYaml : Yaml.TextLayer.standard.Replays ledgerYaml := by
  have hprint : Yaml.print ledgerYaml = "list:\n- 9007199254740992.0\n".toList := by decide +kernel
  have hne : "list:\n- 9007199254740992.0\n".toList ≠ [] := by decide +kernel
  have hallowed : "list:\n- 9007199254740992.0\n".toList.all Yaml.isAllowed = true := by decide +kernel
  have htokens : Yaml.Token.ofText "list:\n- 9007199254740992.0\n".toList =
      [.blockMapping, .key, .scalar ['l', 'i', 's', 't'] true, .value, .hyphen,
        .scalar "9007199254740992.0".toList true, .blockEnd, .textEnd] := by decide +kernel
  have hfloat : Yaml.Atom.ofPlain "9007199254740992.0".toList = .float ⟨0x4340000000000000⟩ := by decide +kernel
  intro _ text htext
  have htext' : Yaml.print ledgerYaml = text := Except.ok.inj htext
  rw [← htext', hprint]
  refine ⟨hne, (Yaml.standard_parse_encode hallowed).trans ?_⟩
  rw [htokens]
  change Yaml.Parsed.mk
    (.dict [(.text ['l', 'i', 's', 't'], .list [.scalar (.ofPlain "9007199254740992.0".toList)])]) true = _
  rw [hfloat]
  rfl

theorem standard_replays_ledgerToml : Toml.TextLayer.standard.Replays false ledgerToml := by
  have hprint : Toml.print false ledgerToml = "list = [9007199254740992.0]\n".toList := by decide +kernel
  have hne : "list = [9007199254740992.0]\n".toList ≠ [] := by decide +kernel
  have hparse : Toml.parse? "list = [9007199254740992.0]\n".toList = some ledgerToml := by decide +kernel
  intro _ text htext
  obtain rfl : Toml.print false ledgerToml = text := Except.ok.inj htext
  rw [hprint]
  have hitem : (Document.list [.scalar (Toml.Scalar.float ⟨0x4340000000000000⟩)]).Reordered Toml.Scalar.Agrees
      (.list [.scalar (.float ⟨0x4340000000000000⟩)]) := .list (.cons (.scalar (.inl rfl)) .nil)
  exact ⟨iff_of_false hne nofun, _, hparse, .dict (.refl _) rfl (.cons hitem .nil)⟩

theorem standard_relays_ledger :
    TextLayers.standard.Relays false (.table (ledgerEntries (.integer 9007199254740993))) where
  yaml u doc hcarried hu hdoc := by
    obtain ⟨n, rfl, hn⟩ := eq_of_carried_ledger hcarried hu
    have hledger : Yaml.dialect.ofTree (.table (ledgerEntries n)) =
        .ok (.dict [("list", .list [.scalar (.float n.toFloat)])]) := rfl
    rw [hledger, hn] at hdoc
    cases hdoc
    exact ⟨⟨_, rfl⟩, standard_replays_ledgerYaml⟩
  toml u ms hcarried hu hms := by
    obtain ⟨n, rfl, hn⟩ := eq_of_carried_ledger hcarried hu
    have hledger : Toml.dialect.membersOfTree (.table (ledgerEntries n)) =
        .ok [("list", .list [.scalar (.float n.toFloat)])] := rfl
    rw [hledger, hn] at hms
    cases hms
    exact ⟨⟨_, rfl⟩, standard_replays_ledgerToml⟩

theorem isPortable_ledger : Tree.IsPortable (ledgerEntries (.integer 9007199254740993)) := by
  have hlist : (Tree.table [(.integer 1, .number (.integer 9007199254740993))]).IsCommon :=
    .table (.inl ⟨_, rfl⟩) (List.forall_mem_singleton.2 (.number nofun))
  have hnamed : Tree.IsNamed (ledgerEntries (.integer 9007199254740993)) :=
    List.forall_mem_singleton.2 ⟨"list", rfl, by decide⟩
  refine ⟨.table (.inr hnamed) (List.forall_mem_singleton.2 hlist), hnamed, nofun, fun format n hn => ?_⟩
  cases format <;> cases hn <;> decide

/-- The list is read with the integer first, and with the double nearest to it ever after. -/
theorem relayAlong_equal_ledger :
    ∃ read, relayAlong .standard .default [json, yaml, toml, json] ledger ⟨0⟩ = .ok read ∧ read.length = 4 ∧
      ∀ r ∈ read, r.2.equal (.table r.1) (.table ⟨0⟩) = true ∧ r.2.equal (.table ⟨0⟩) (.table r.1) = true := by
  refine relayAlong_equal rfl (fun a ha => ?_) rfl isPortable_ledger standard_relays_ledger _ (by decide)
  rcases eq_of_ledger_reaches ha with rfl | rfl <;> decide

end Format
end Interchange
