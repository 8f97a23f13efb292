import Interchange.Proofs.Relay
import Interchange.Proofs.Settled
/-!
# Settling — TOML that is read and written again

There is no nil in a table that was read, its lists are sequences and its root is a mapping under names, so all that one
pass does is to make doubles of numbers and to put members in another order (`Toml.exists_pass`).
-/
namespace Interchange
namespace Toml

theorem exists_load_of_readWith_ok {layer : TextLayer} {h h' : Heap} {input : List UInt8} {v : Value}
    (hread : readWith layer h input = .ok (v, h')) : ∃ ms, (Document.dict ms).load Scalar.value h = (v, h') := by
  rw [readWith] at hread
  split at hread
  · cases hread
  · split at hread
    · cases hread
    · split at hread
      · rename_i ms _
        exact ⟨ms, Except.ok.inj hread⟩
      · cases hread

/-- A leaf that was read. -/
def IsReadLeaf (t : Tree) : Prop := ∃ a : Scalar, t = .ofLeaf a.value

theorem over_tree (d : Document Scalar) : (d.tree Scalar.value).Over IsReadLeaf fun k => k.name? ≠ none :=
  d.over_true.tree (fun a _ => ⟨by cases a <;> rfl, a, rfl⟩) (fun _ => nofun) fun _ _ => nofun

theorem IsReadLeaf.ofLeaf_ne {t : Tree} (h : IsReadLeaf t) (e : Error) : dialect.ofLeaf t ≠ .error e := by
  obtain ⟨a, rfl⟩ := h
  cases a <;> exact nofun

theorem IsReadLeaf.carried_leaf {t : Tree} (h : IsReadLeaf t) : t.Carried (leaf t) := by
  obtain ⟨a, rfl⟩ := h
  cases a with
  | integer i => exact .number _
  | _ => exact .leaf rfl

/-- **TOML reads no nil.** -/
theorem IsReadLeaf.isNil_eq_false {t : Tree} (h : IsReadLeaf t) : HasNil.isNil t = false := by
  obtain ⟨a, rfl⟩ := h
  cases a <;> rfl

/-- **A root under names has its normal form like any other table.** -/
theorem toml_eq_normal {es : List (Key × Tree)} (hne : es ≠ []) (hnames : ∀ k ∈ Entries.keys es, ∃ s, k = .string s) :
    (Tree.table es).toml = (Tree.table es).normal leaf false := by
  rw [Tree.normal_table, Entries.form_of_names hne hnames]
  rfl

/-- **One pass**: members that were read are written again, and where a text layer reads back what is written, it gives the
same data. -/
theorem exists_pass (layers : TextLayers) {h : Heap} {root : TableId} {ms₀ : Members}
    (ht : h.tree? (.table root) = some ((Document.dict ms₀).tree Scalar.value)) (hne : (h.get root).isEmpty = false)
    (pretty : Bool) : ∃ ms, dialect.encodeMapping h ⟨pretty, none⟩ root = .ok ms ∧ (layers.toml.ReadsBack pretty ms →
      ∃ r u, Format.toml.relay layers ⟨pretty, none⟩ h root = .ok r ∧ h.Extends r.2 ∧ r.2.tree? (.table r.1) = some u ∧
        (((Document.dict ms₀).tree Scalar.value).IsSolid → ((Document.dict ms₀).tree Scalar.value).Same u)) := by
  have hover := over_tree (.dict ms₀)
  obtain ⟨ms, hms⟩ := hover.exists_membersOfTree_ok dialect (fun _ e ht => ht.ofLeaf_ne e) fun _ hk => hk
  have hes : Entries.ofList (Document.treeMembers Scalar.value ms₀) ≠ [] := fun hes => by
    obtain ⟨ts, hts, hmatches⟩ := Heap.unfold_table.1 ht
    rw [Document.tree, hes] at hts
    cases hts
    rw [Table.isEmpty, List.forall₂_nil_right_iff.1 hmatches] at hne
    cases hne
  have hms' : ms ≠ [] := fun hnil => by
    obtain ⟨e, he⟩ := List.exists_mem_of_ne_nil _ hes
    have hnil := ((dialect.encodeEntries_eq_nil rfl hms).1 hnil).2 e he
    rw [(hover.of_table.2 e he).isNil_eq_false fun _ ht => ht.isNil_eq_false] at hnil
    cases hnil
  refine ⟨ms, by rw [Dialect.encodeMapping_eq_membersOfTree _ rfl ht, hms], fun hback => ?_⟩
  have hm : (⟨pretty, none⟩ : Options).maxDepth = none := rfl
  obtain ⟨r, u, hrelay, hext, hu, halike⟩ := exists_relay_of_readsBack hm ht hms hms' hback
  refine ⟨r, u, hrelay, hext, hu, fun hsolid => ?_⟩
  have hsettled : ((Document.dict ms₀).tree Scalar.value).IsSettled false :=
    (Document.dict ms₀).over_true.isSettled_of_isSolid (fun a => by cases a <;> rfl) hsolid
  have hcarried := hsettled.carried_normal (fun _ ht _ => ht.carried_leaf) hover
  rw [Document.tree, ← toml_eq_normal hes fun _ => Document.string_of_mem_keys_treeMembers] at hcarried
  exact hcarried.same_of_alike halike

end Toml
end Interchange
