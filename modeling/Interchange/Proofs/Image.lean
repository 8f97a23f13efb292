import Interchange.Proofs.Refusal
import Interchange.Proofs.Xml.Naming
/-!
# Image — the values that readers give

Every reader gives a value that is a tree of new tables (`Heap.IsGrown`), whatever the format: each of them loads a
document.  Nothing in such a value is refused by a writer of trees, and what was read as XML is a record that can be
written as XML (`Format.isGrown_of_readWith_ok`).
-/
namespace Interchange

/-! ## What a grown value does not have -/

namespace Heap

theorem Path.of_transGen {h : Heap} {a b : TableId} (hab : Relation.TransGen h.Child a b) :
    ∃ k ks, h.Path a (k :: ks) b := by
  induction hab with
  | single hc =>
    obtain ⟨k, hk⟩ := hc
    exact ⟨k, [], .through hk (.here _)⟩
  | tail _ hc ih =>
    obtain ⟨k, ks, hp⟩ := ih
    obtain ⟨l, hl⟩ := hc
    exact ⟨k, ks ++ [l], hp.append (.through hl (.here _))⟩

variable {h : Heap} {lo hi : Nat} {root : TableId}

/-- **A grown value has no cycle**: going round one would be a second way. -/
theorem IsGrown.not_hasCycle (hv : h.IsGrown lo hi (.table root)) : ¬ h.HasCycle root := by
  rintro ⟨a, hra, haa⟩
  obtain ⟨p, hp⟩ := exists_path_of_reaches hra
  obtain ⟨k, ks, hk⟩ := Path.of_transGen haa
  have heq := hv.alone p (p ++ k :: ks) a ⟨root, rfl, hp⟩ ⟨root, rfl, hp.append hk⟩
  have hlen := congrArg List.length heq
  simp at hlen

theorem IsGrown.not_hasFault (hv : h.IsGrown lo hi (.table root)) : ¬ h.HasFault root := by
  rintro (⟨a, b, v, hra, hm⟩ | ⟨a, k, kind, handle, hra, hm⟩)
  · obtain ⟨p, hp⟩ := exists_path_of_reaches hra
    have hk : Key.bool b ∈ Entries.keys (h.get a).entries := List.mem_map_of_mem (f := Prod.fst) hm
    rcases (hv.plain p a ⟨root, rfl, hp⟩).keyed with hnamed | ⟨hlisted, -⟩
    · obtain ⟨s, hs⟩ := hnamed _ hk
      cases hs
    · obtain ⟨i, hi⟩ := hlisted _ hk
      cases hi
  · obtain ⟨p, hp⟩ := exists_path_of_reaches hra
    exact (hv.plain p a ⟨root, rfl, hp⟩).data _ hm kind handle rfl

end Heap

/-! ## What is written of it -/

namespace Format

variable {layers : TextLayers} {format : Format} {h h' : Heap} {v : Value} {options : Options} {root : TableId}

/-- **A grown table has a text in every format of trees.** -/
theorem exists_writeWith_ok (hf : format ≠ xml) (hemit : layers.EmitAll) {lo hi : Nat}
    (hv : h.IsGrown lo hi (.table root)) (hm : options.maxDepth = none) :
    ∃ text, format.writeWith layers h options root = .ok text :=
  (exists_writeWith_ok_iff hemit hm hf).2
    ⟨hv.not_hasCycle, fun hk => hv.not_hasFault (.inl hk), fun ho => hv.not_hasFault (.inr ho)⟩

/-- **What is read is a document that was loaded**, its scalars being data. -/
theorem exists_load_of_readWith_ok {input : List UInt8} (hok : format.readWith layers h input = .ok (v, h')) :
    ∃ (α : Type) (leaf : α → Value) (d : Document α), (∀ a, (leaf a).isTable = false) ∧
      (∀ a kind handle, leaf a ≠ .foreign kind handle) ∧ d.load leaf h = (v, h') := by
  cases format with
  | json =>
    refine ⟨Json.Scalar, Json.Scalar.value, ?_⟩
    rw [readWith, Json.read] at hok
    split at hok
    · cases hok
    · split at hok
      · rename_i d _
        exact ⟨d, fun a => by cases a <;> rfl, fun a => by cases a <;> exact nofun, Except.ok.inj hok⟩
      · cases hok
  | yaml =>
    refine ⟨Yaml.Scalar, Yaml.Scalar.value, ?_⟩
    rw [readWith, Yaml.readWith] at hok
    split at hok
    · cases hok
    · split at hok
      · rename_i d _
        exact ⟨d, fun a => by cases a <;> rfl, fun a => by cases a <;> exact nofun, Except.ok.inj hok⟩
      · cases hok
      · cases hok
  | toml =>
    refine ⟨Toml.Scalar, Toml.Scalar.value, ?_⟩
    rw [readWith, Toml.readWith] at hok
    split at hok
    · cases hok
    · split at hok
      · cases hok
      · split at hok
        · rename_i ms _
          exact ⟨.dict ms, fun a => by cases a <;> rfl, fun a => by cases a <;> exact nofun, Except.ok.inj hok⟩
        · cases hok
  | xml =>
    obtain ⟨n, -, rfl, rfl⟩ := Xml.exists_node_of_read_ok hok
    exact ⟨String, Value.string, (Xml.Element.ofNode [] n).document, fun _ => rfl, fun _ => nofun,
      Xml.Element.load_document _ h⟩

/-- **Every reader gives a tree of new tables.**  It has no cycle and no thing of the host, so every format of trees has a
text for it, and so has XML if it was read as XML; text layers have a text for every document of a table. -/
theorem isGrown_of_readWith_ok {input : List UInt8} (hok : format.readWith layers h input = .ok (v, h')) :
    h'.IsGrown h.size h'.size v ∧ ∀ root, v = .table root → ¬ h'.HasCycle root ∧
      ∀ target, (target = xml → format = xml) → layers.EmitAll → ∀ options : Options, options.maxDepth = none →
        ∃ text, target.writeWith layers h' options root = .ok text := by
  obtain ⟨α, leaf, d, hleaf, hdata, hload⟩ := exists_load_of_readWith_ok hok
  have hgrown := Document.isGrown_load hleaf hdata d h (d.load leaf h).2 (.refl _)
  rw [hload] at hgrown
  refine ⟨hgrown, ?_⟩
  rintro root rfl
  refine ⟨hgrown.not_hasCycle, fun target htarget hemit options hm => ?_⟩
  by_cases hxml : target = xml
  · obtain rfl := htarget hxml
    subst hxml
    obtain ⟨n, hn, hroot, rfl⟩ := Xml.exists_node_of_read_ok hok
    cases hroot
    have htags := Xml.Element.all_ofNode (P := fun e => e.tag ≠ "") Xml.Element.tag_ofNode_ne_empty n [] hn
    exact ⟨_, by rw [writeWith, Xml.write, Xml.Element.ofRecord_load htags (.refl _) hm]; rfl⟩
  · exact exists_writeWith_ok hxml hemit hgrown hm

/-- A record with an attribute, a text and a child. -/
def leaflet : String := "<a k=\"1\">x<b/></a>"

/-- Its record is a tree of new tables, and can be written as JSON and as XML. -/
theorem isGrown_of_readWith_ok_leaflet : ∃ root h', xml.readWith .standard .empty (Utf8.encode leaflet.toList) =
    .ok (.table root, h') ∧ h'.IsGrown 0 h'.size (.table root) ∧
      (∃ text, json.writeWith .standard h' .default root = .ok text) ∧
      ∃ text, xml.writeWith .standard h' .default root = .ok text := by
  have hsome : ((Xml.Markup.ofText? leaflet.toList).bind Xml.Node.ofMarkup?).isSome = true := by decide +kernel
  obtain ⟨n, hn⟩ := Option.isSome_iff_exists.1 hsome
  obtain ⟨root, h', hok⟩ : ∃ root h', xml.readWith .standard .empty (Utf8.encode leaflet.toList) = .ok (.table root, h') :=
    ⟨_, _, by rw [readWith, Xml.read_encode (by decide), hn]⟩
  obtain ⟨hgrown, hwrite⟩ := isGrown_of_readWith_ok hok
  exact ⟨root, h', hok, hgrown, (hwrite root rfl).2 json nofun TextLayers.standard_emitAll .default rfl,
    (hwrite root rfl).2 xml (fun _ => rfl) TextLayers.standard_emitAll .default rfl⟩

end Format
end Interchange
