import Interchange.Codec
import Interchange.Proofs.Encoding
/-!
# Sharing — graphs written as trees

JSON, YAML and TOML write a table that reaches no cycle as they would write its tree, so the text does not show which
tables are shared.  A table that reaches a cycle has no text.  XML goes by records and has no part here.
-/
namespace Interchange

theorem Json.dialect_lawful : Json.dialect.Lawful := ⟨fun _ => rfl, nofun⟩

theorem Yaml.dialect_lawful : Yaml.dialect.Lawful := ⟨fun _ => rfl, nofun⟩

theorem Toml.dialect_lawful : Toml.dialect.Lawful := ⟨nofun, nofun⟩

theorem Yaml.TextLayer.text_ne (layer : Yaml.TextLayer) (d : Document Yaml.Scalar) :
    layer.text d ≠ .error .cyclicStructure := by
  unfold Yaml.TextLayer.text
  cases layer.emit d <;> simp

theorem Toml.TextLayer.text_ne (layer : Toml.TextLayer) (options : Options) (ms : Toml.Members) :
    layer.text options ms ≠ .error .cyclicStructure := by
  unfold Toml.TextLayer.text
  cases layer.emit options.pretty ms <;> simp

namespace Format

/-- The text of a table under which at most `room` more tables can be opened; `stuck` is the error for one beyond. -/
def writeWithin (layers : TextLayers) (stuck : Error) (room : Nat) (format : Format) (h : Heap) (options : Options)
    (root : TableId) : Except Error String :=
  match format with
  | json => Json.dialect.encodeWithin stuck h room options root >>= Json.text options
  | yaml => Yaml.dialect.encodeWithin stuck h room options root >>= layers.yaml.text
  | toml => Toml.dialect.encodeMappingWithin stuck h room options root >>= layers.toml.text options
  | xml => Xml.write h options root

/-- **The text of a tree**, by plain recursion: nothing is guarded and nothing is shared. -/
def writeTree (layers : TextLayers) (format : Format) (hf : format ≠ xml) (options : Options) (t : Tree) :
    Except Error String :=
  match format, hf with
  | json, _ => Json.dialect.ofTree t >>= Json.text options
  | yaml, _ => Yaml.dialect.ofTree t >>= layers.yaml.text
  | toml, _ => Toml.dialect.membersOfTree t >>= layers.toml.text options
  | xml, hf => absurd rfl hf

variable {layers : TextLayers} {format : Format} {h : Heap} {options : Options} {root : TableId}

theorem writeWithin_eq {stuck : Error} {room : Nat} (hr : h.size ≤ room) :
    writeWithin layers stuck room format h options root = writeWith layers format h options root := by
  cases format with
  | json => rw [writeWithin, Dialect.encodeWithin_eq _ hr]; rfl
  | yaml => rw [writeWithin, Dialect.encodeWithin_eq _ hr]; rfl
  | toml => rw [writeWithin, Dialect.encodeMappingWithin_eq _ hr]; rfl
  | xml => rfl

theorem writeWith_eq_writeTree (hf : format ≠ xml) (hd : options.maxDepth = none) {t : Tree}
    (ht : h.tree? (.table root) = some t) :
    writeWith layers format h options root = writeTree layers format hf options t := by
  cases format with
  | json => rw [writeTree, ← Dialect.encode_eq_ofTree _ hd ht]; rfl
  | yaml => rw [writeTree, ← Dialect.encode_eq_ofTree _ hd ht]; rfl
  | toml => rw [writeTree, ← Dialect.encodeMapping_eq_membersOfTree _ hd ht]; rfl
  | xml => exact absurd rfl hf

theorem writeTree_ne (hf : format ≠ xml) (t : Tree) :
    writeTree layers format hf options t ≠ .error .cyclicStructure := by
  intro he
  cases format with
  | json =>
    rcases bind_eq_error.1 he with he | ⟨d, -, he⟩
    · exact Json.dialect_lawful.ofTree_ne t he
    · cases he
  | yaml =>
    rcases bind_eq_error.1 he with he | ⟨d, -, he⟩
    · exact Yaml.dialect_lawful.ofTree_ne t he
    · exact layers.yaml.text_ne d he
  | toml =>
    rcases bind_eq_error.1 he with he | ⟨ms, -, he⟩
    · cases t with
      | table es => exact Toml.dialect_lawful.encodeEntries_ofTree_ne (fun e _ => Toml.dialect_lawful.ofTree_ne e.2) he
      | _ => cases he
    · exact layers.toml.text_ne options ms he
  | xml => exact hf rfl

theorem exists_tree_of_writeWith_ok (hf : format ≠ xml) {text : String}
    (hok : writeWith layers format h options root = .ok text) : ∃ t, h.tree? (.table root) = some t := by
  cases format with
  | json =>
    obtain ⟨d, hd, -⟩ := bind_eq_ok.1 hok
    exact (Dialect.exists_tree_of_encode_ok _ hd).imp fun _ => And.left
  | yaml =>
    obtain ⟨d, hd, -⟩ := bind_eq_ok.1 hok
    exact (Dialect.exists_tree_of_encode_ok _ hd).imp fun _ => And.left
  | toml =>
    obtain ⟨ms, hms, -⟩ := bind_eq_ok.1 hok
    exact (Dialect.exists_tree_of_encodeMapping_ok _ hms).imp fun _ => And.left
  | xml => exact absurd rfl hf

theorem writeWith_error_of_hasCycle (hf : format ≠ xml) (hd : options.maxDepth = none) (hc : h.HasCycle root) {e : Error}
    (he : writeWith layers format h options root = .error e) : e = .cyclicStructure ∨ h.HasFault root := by
  have hnone : ∀ t, h.tree? (.table root) ≠ some t := fun t ht => Heap.not_hasCycle_of_unfold ht hc
  cases format with
  | json =>
    rcases bind_eq_error.1 he with he | ⟨d, hok, -⟩
    · exact Json.dialect_lawful.encode_error hd he
    · obtain ⟨t, ht, -⟩ := Dialect.exists_tree_of_encode_ok _ hok
      exact absurd ht (hnone t)
  | yaml =>
    rcases bind_eq_error.1 he with he | ⟨d, hok, -⟩
    · exact Yaml.dialect_lawful.encode_error hd he
    · obtain ⟨t, ht, -⟩ := Dialect.exists_tree_of_encode_ok _ hok
      exact absurd ht (hnone t)
  | toml =>
    rcases bind_eq_error.1 he with he | ⟨ms, hok, -⟩
    · exact Toml.dialect_lawful.encodeMapping_error hd he
    · obtain ⟨t, ht, -⟩ := Dialect.exists_tree_of_encodeMapping_ok _ hok
      exact absurd ht (hnone t)
  | xml => exact absurd rfl hf

/-- **A graph is written as a tree or not at all.**  The walk ends whatever the graph: a bound on the open tables that
is no less than the size of the heap is never met, whatever the error would be.  Without a cycle in reach the result is the
one for the tree of the root, and no cycle is reported; with one the result is an error, which reports it unless a truth
value is a key or a thing of the host is a value somewhere in reach. -/
theorem writeWith_graph (layers : TextLayers) (format : Format) (hf : format ≠ xml) (h : Heap) (options : Options)
    (hd : options.maxDepth = none) (root : TableId) :
    (∀ stuck room, h.size ≤ room →
      writeWithin layers stuck room format h options root = writeWith layers format h options root) ∧
    (¬ h.HasCycle root → ∃ t, h.tree? (.table root) = some t ∧
      writeWith layers format h options root = writeTree layers format hf options t ∧
      writeWith layers format h options root ≠ .error .cyclicStructure) ∧
    (h.HasCycle root → ∃ e, writeWith layers format h options root = .error e ∧
      (¬ h.HasBoolKey root → ¬ h.HasForeign root → e = .cyclicStructure)) := by
  refine ⟨fun stuck room hr => writeWithin_eq hr, fun hac => ?_, fun hc => ?_⟩
  · obtain ⟨t, ht⟩ := Heap.exists_tree?_of_not_hasCycle hac
    have hw : writeWith layers format h options root = writeTree layers format hf options t :=
      writeWith_eq_writeTree hf hd ht
    exact ⟨t, ht, hw, hw ▸ writeTree_ne hf t⟩
  · cases hw : writeWith layers format h options root with
    | ok text =>
      obtain ⟨t, ht⟩ := exists_tree_of_writeWith_ok hf hw
      exact absurd hc (Heap.not_hasCycle_of_unfold ht)
    | error e =>
      refine ⟨e, rfl, fun hb ho => ?_⟩
      rcases writeWith_error_of_hasCycle hf hd hc hw with he | hb' | ho'
      · exact he
      · exact absurd hb' hb
      · exact absurd ho' ho

/-- Two names for one empty table. -/
def fan : Heap := ⟨#[.ofPairs [(.string "a", .table ⟨1⟩), (.string "b", .table ⟨1⟩)], .empty]⟩

/-- A table that holds itself. -/
def knot : Heap := ⟨#[.ofPairs [(.string "self", .table ⟨0⟩)]]⟩

theorem knot_entries {a : TableId} {e : Key × Value} (he : e ∈ (knot.get a).entries) :
    e = (.string "self", .table ⟨0⟩) := by
  obtain ⟨_ | i⟩ := a
  · exact List.mem_singleton.1 he
  · cases he

/-- The fan is written as its tree, and the knot is refused for its cycle. -/
theorem writeWith_graph_fan_knot :
    (∃ t, fan.tree? (.table ⟨0⟩) = some t ∧
      writeWith .standard json fan .default ⟨0⟩ = writeTree .standard json (by decide) .default t ∧
      writeWith .standard json fan .default ⟨0⟩ ≠ .error .cyclicStructure) ∧
    writeWith .standard toml knot .default ⟨0⟩ = .error .cyclicStructure := by
  refine ⟨(writeWith_graph .standard json (by decide) fan .default rfl ⟨0⟩).2.1 (Heap.tree?_isSome_iff.1 rfl), ?_⟩
  have hc : knot.HasCycle ⟨0⟩ := ⟨⟨0⟩, .refl, .single ⟨.string "self", List.mem_singleton.2 rfl⟩⟩
  obtain ⟨e, he, hcyc⟩ := (writeWith_graph .standard toml (by decide) knot .default rfl ⟨0⟩).2.2 hc
  rw [he, hcyc]
  · rintro ⟨a, b, v, -, hm⟩
    cases knot_entries hm
  · rintro ⟨a, k, kind, handle, -, hm⟩
    cases knot_entries hm

end Format
end Interchange
