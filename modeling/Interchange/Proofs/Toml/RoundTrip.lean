import Interchange.Proofs.Alike
import Interchange.Proofs.Toml.Replay
/-!
# Round trip — tables in TOML

The text of a table reads as its normal form, the members of a table in some order: the root is a mapping whatever its
shape, entries that hold nil are gone, and every number is a double (`read_eq_toml_of_write_ok`).
-/
namespace Interchange

/-! ## Members in another order -/

namespace Document

variable {α : Type} {R : α → α → Prop} {value : α → Value}

theorem matches_treeMembers {S : Tree → Tree → Prop} : ∀ {ns os : List (String × Document α)},
    ns.map Prod.fst = os.map Prod.fst →
      List.Forall₂ (fun d e => S (d.tree value) (e.tree value)) (ns.map Prod.snd) (os.map Prod.snd) →
        Entries.Matches S (treeMembers value ns) (treeMembers value os)
  | [], [], _, _ => .nil
  | (name, d) :: ns, (name', e) :: os, hn, .cons hde h => by
    rw [List.map_cons, List.map_cons, List.cons.injEq] at hn
    rw [treeMembers, treeMembers]
    exact .cons ⟨congrArg Key.string hn.1, hde⟩ (matches_treeMembers hn.2 h)

mutual

/-- **Reordered documents have trees that are alike**, if related scalars have. -/
theorem Reordered.alike (hR : ∀ a b, R a b → (Tree.ofLeaf (value a)).Alike (.ofLeaf (value b))) :
    ∀ (d : Document α), d.Distinct → ∀ e, d.Reordered R e → (d.tree value).Alike (e.tree value)
  | .scalar a, _, _, .scalar h => hR _ _ h
  | .list items, .list hitems, _, .list h => by
    have hmatches := (Entries.matches_numbered (Reordered.alikeItems hR items hitems _ h)).ofList
    exact .of_perm Entries.nodup_keys_ofList (.refl _) hmatches
  | .dict members, .dict hnames hmembers, _, @Reordered.dict _ _ _ ns os hperm hn h => by
    have hkeys : (Entries.keys (treeMembers value members)).Nodup := by
      rw [keys_treeMembers]
      exact hnames.map fun _ _ h => Key.string.inj h
    have hperm' : (treeMembers value members).Perm (treeMembers value ns) := by
      rw [treeMembers_eq, treeMembers_eq]
      exact hperm.map _
    have halike : ∀ d ∈ ns.map Prod.snd, ∀ e, d.Reordered R e → (d.tree value).Alike (e.tree value) := by
      intro d hd
      obtain ⟨m, hm, rfl⟩ := List.mem_map.1 hd
      have hm := hperm.mem_iff.2 hm
      exact Reordered.alikeMembers hR members m hm (hmembers m hm)
    have hmatches : Entries.Matches Tree.Alike (treeMembers value ns) (treeMembers value os) := by
      refine matches_treeMembers hn (((List.forall₂_and_left _ _).2 ⟨halike, h⟩).imp fun d e hde => ?_)
      exact hde.1 e hde.2
    have hkeys' : (Entries.keys (treeMembers value os)).Nodup := by
      rw [← hmatches.keys_eq]
      exact (hperm'.map Prod.fst).nodup_iff.1 hkeys
    rw [tree, tree, Entries.ofList_eq_self hkeys, Entries.ofList_eq_self hkeys']
    exact .of_perm hkeys hperm' hmatches

theorem Reordered.alikeItems (hR : ∀ a b, R a b → (Tree.ofLeaf (value a)).Alike (.ofLeaf (value b))) :
    ∀ (ds : List (Document α)), (∀ d ∈ ds, d.Distinct) → ∀ es, List.Forall₂ (Reordered R) ds es →
      List.Forall₂ Tree.Alike (treeItems value ds) (treeItems value es)
  | [], _, _, .nil => .nil
  | d :: ds, hds, _, .cons h hs => .cons (Reordered.alike hR d (hds d List.mem_cons_self) _ h)
      (Reordered.alikeItems hR ds (fun d hd => hds d (List.mem_cons_of_mem _ hd)) _ hs)

theorem Reordered.alikeMembers (hR : ∀ a b, R a b → (Tree.ofLeaf (value a)).Alike (.ofLeaf (value b))) :
    ∀ (ms : List (String × Document α)), ∀ m ∈ ms, m.2.Distinct → ∀ e, m.2.Reordered R e →
      (m.2.tree value).Alike (e.tree value)
  | (_, d) :: ms, m, hm, hdistinct, e, h => by
    rcases List.mem_cons.1 hm with rfl | hm
    · exact Reordered.alike hR d hdistinct e h
    · exact Reordered.alikeMembers hR ms m hm hdistinct e h

end

end Document

/-! ## The normal form -/

/-- What TOML makes of a leaf: a number becomes a double. -/
def Toml.leaf : Tree → Tree
  | .number n => .number (.float n.toFloat)
  | t => t

/-- **The normal form of a tree in TOML.**  The root is a mapping whatever its form, and entries that hold nil are left
out. -/
def Tree.toml : Tree → Tree
  | .table es => .table (Entries.ofList (es.filterMap fun e => named false (e.1, e.2, e.2.normal Toml.leaf false)))
  | t => t.normal Toml.leaf false

namespace Toml

theorem isTable_value (a : Scalar) : a.value.isTable = false := by cases a <;> rfl

theorem tree_ofLeaf (t : Tree) (doc : Document Scalar) (ht : t.isTable = false) (h : dialect.ofLeaf t = .ok doc) :
    doc.tree Scalar.value = leaf t := by
  cases t with
  | table es => cases ht
  | nil => cases h
  | foreign kind handle => cases h
  | _ => cases h; rfl

theorem Scalar.Agrees.alike (a b : Scalar) (h : a.Agrees b) : (Tree.ofLeaf a.value).Alike (.ofLeaf b.value) := by
  rcases h with rfl | ⟨x, y, rfl, rfl, hx, hy⟩
  · exact .leaf (by cases a <;> rfl)
  · exact .nan hx hy

theorem tree_dict {es : List (Key × Tree)} {ms : Members} (h : dialect.membersOfTree (.table es) = .ok ms) :
    (Document.dict ms).tree Scalar.value = (Tree.table es).toml := by
  have hms := dialect.treeMembers_encodeEntries (fun e _ doc hdoc => dialect.tree_of_ofTree tree_ofLeaf e.2 hdoc) h
  have hnames : (Entries.keys ms).Nodup := by
    have hnil : (Entries.keys ([] : Entries String (Document Scalar))).Nodup := .nil
    exact dialect.nodup_encodeEntries hnil h
  rw [Document.tree, Entries.ofList_eq_self, hms]
  · rfl
  · rw [Document.keys_treeMembers]
    exact hnames.map fun _ _ h => Key.string.inj h

/-- **The text of a table reads as the normal form of its tree**, in any layout and into any heap, if an entry of it holds
something, a text layer replays its members, and tables nest no deeper than the reader goes. -/
theorem read_eq_toml_of_write_ok {layer : TextLayer} {h : Heap} {options : Options} {root : TableId} {ms : Members}
    {text : String} (hms : dialect.encodeMapping h options root = .ok ms) (hreplays : layer.Replays options.pretty ms)
    (hok : writeWith layer h options root = .ok text) (hsome : ∃ e ∈ (h.get root).entries, e.2.isNil = false) :
    ∃ t, h.tree? (.table root) = some t ∧ (t.height ≤ maxNesting → ∀ h₀, ∃ id h' t',
      readWith layer h₀ (Utf8.encode text.toList) = .ok (.table id, h') ∧ h'.tree? (.table id) = some t' ∧
        t'.Alike t.toml) := by
  obtain ⟨t, ht, hof⟩ := Dialect.exists_tree_of_encodeMapping_ok _ hms
  refine ⟨t, ht, fun hheight h₀ => ?_⟩
  rw [writeWith, hms] at hok
  rcases hreplays.readWith_eq (dialect_gives.fits_membersOfTree hheight hof) hok with
    ⟨hempty, -⟩ | ⟨-, ms', hreordered, hread⟩
  · exact absurd hsome ((eq_nil_of_encodeMapping_ok hms).1 hempty)
  · obtain ⟨ts, rfl, -⟩ := Heap.unfold_table.1 ht
    have halike := Document.Reordered.alike Scalar.Agrees.alike _ (dialect.distinct_membersOfTree hof) _ hreordered
    rw [tree_dict hof] at halike
    have htree := (Document.tree?_load isTable_value (.dict ms') h₀).2 _ (.refl _)
    exact ⟨_, _, _, hread h₀, htree, halike.symm⟩

/-- A name that two entries have, an entry that holds nil, and a table before a double that is no number. -/
def coinciding : Heap :=
  ⟨#[.ofPairs [(.integer 1, .string "x"), (.string "gone", .nil), (.string "t", .table ⟨1⟩),
      (.string "1", .table ⟨2⟩), (.string "n", .float .nan)],
    .ofPairs [(.string "k", .bool true)], .ofValues [.integer 7, .string "y"]]⟩

def coincidingMembers : Members :=
  [("1", .list [.scalar (.float ⟨0x401C000000000000⟩), .scalar (.string "y")]),
    ("t", .dict [("k", .scalar (.bool true))]), ("n", .scalar (.float .nan))]

/-- The table stands behind the double, under a header. -/
def coincidingText : String := "1 = [7.0, \"y\"]\nn = nan\n\n[t]\nk = true\n"

theorem standard_replays_coinciding : TextLayer.standard.Replays false coincidingMembers := by
  have hprint : print false coincidingMembers = coincidingText.toList := by decide +kernel
  have hne : coincidingText.toList ≠ [] := by decide +kernel
  have hparse : Toml.parse? coincidingText.toList =
      some [("1", .list [.scalar (.float ⟨0x401C000000000000⟩), .scalar (.string "y")]), ("n", .scalar (.float .nan)),
        ("t", .dict [("k", .scalar (.bool true))])] := by decide +kernel
  have hself : ∀ a : Scalar, Document.Reordered Scalar.Agrees (.scalar a) (.scalar a) := fun a => .scalar (.inl rfl)
  intro _ text htext
  obtain rfl : print false coincidingMembers = text := Except.ok.inj htext
  rw [hprint]
  refine ⟨iff_of_false hne nofun, _, hparse, .dict (.cons _ (.swap _ _ _)) rfl ?_⟩
  refine .cons (.list (.cons (hself _) (.cons (hself _) .nil))) (.cons (hself _) (.cons ?_ .nil))
  exact .dict (.refl _) rfl (.cons (hself _) .nil)

/-- The name stands once, with its last value, and the entry that held nil is gone. -/
theorem read_eq_toml_of_write_ok_coinciding : writeWith .standard coinciding .default ⟨0⟩ = .ok coincidingText ∧
    ∀ h₀, ∃ id h' t', readWith .standard h₀ (Utf8.encode coincidingText.toList) = .ok (.table id, h') ∧
      h'.tree? (.table id) = some t' ∧ t'.Alike (.table [(.string "1", .table [(.integer 1, .number (.float
        ⟨0x401C000000000000⟩)), (.integer 2, .string "y")]), (.string "t", .table [(.string "k", .bool true)]),
        (.string "n", .number (.float .nan))]) := by
  have hok : writeWith .standard coinciding .default ⟨0⟩ = .ok coincidingText := by decide +kernel
  have hms : dialect.encodeMapping coinciding .default ⟨0⟩ = .ok coincidingMembers := by decide +kernel
  have hseven : (Number.integer 7).toFloat = ⟨0x401C000000000000⟩ := by decide +kernel
  obtain ⟨t, ht, hread⟩ := read_eq_toml_of_write_ok hms standard_replays_coinciding hok
    ⟨(.integer 1, .string "x"), by decide, rfl⟩
  have htree : coinciding.tree? (.table ⟨0⟩) = some (.table [(.integer 1, .string "x"), (.string "gone", .nil),
    (.string "t", .table [(.string "k", .bool true)]), (.string "1", .table [(.integer 1, .number (.integer 7)),
    (.integer 2, .string "y")]), (.string "n", .number (.float .nan))]) := rfl
  cases htree.symm.trans ht
  rw [← hseven]
  exact ⟨hok, hread (by decide)⟩

end Toml
end Interchange
