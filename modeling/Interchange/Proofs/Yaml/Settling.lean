import Interchange.Proofs.Relay
import Interchange.Proofs.Settled
/-!
# Settling — YAML that is read and written again

Numbers become doubles, strings were taken for what they spell when they were read, and entries that hold nil are left out,
so of a table that was read the first pass leaves a settled one of data that YAML keeps as it is, and the second pass the
same (`Yaml.exists_pass`).
-/
namespace Interchange
namespace Yaml

/-! ## What was read -/

/-- A scalar that was read: a string spells nothing but itself. -/
def Scalar.IsRead : Scalar → Prop
  | string s => Scalar.ofText s.toList = .string s
  | _ => True

theorem Scalar.isRead_ofText (cs : List Char) : (Scalar.ofText cs).IsRead := by
  cases hspelled : Scalar.ofText cs with
  | string s =>
    have hs : s = String.ofList cs := by
      unfold Scalar.ofText at hspelled
      split at hspelled <;> cases hspelled
      rfl
    rw [IsRead, hs, String.toList_ofList, hspelled, hs]
  | _ => trivial

theorem Atom.isRead_scalar (a : Atom) : a.scalar.IsRead := by
  cases a with
  | text cs => exact Scalar.isRead_ofText cs
  | integer i =>
    rw [scalar, Scalar.ofInt]
    split <;> trivial
  | _ => trivial

/-- **A document that was read**: no name in it spells null. -/
def IsRead (d : Document Scalar) : Prop := d.Over Scalar.IsRead (fun name => spellsNull name.toList = false) fun _ => True

theorem Label.spellsNull_of_name_eq_ok {label : Label} {name : String} (h : label.name = .ok name) :
    spellsNull name.toList = false := by
  cases label with
  | text cs =>
    rw [Label.name] at h
    split at h
    · cases h
    · rename_i hnull
      cases h
      rw [String.toList_ofList]
      exact Bool.eq_false_iff.2 hnull
  | noText => cases h
  | broken => cases h

mutual

theorem Outline.isRead_of_document : ∀ (o : Outline) {d : Document Scalar}, o.document = .ok d → IsRead d
  | .scalar a, d, h => by
    cases h
    exact .scalar a.isRead_scalar
  | .list items, d, h => by
    rw [document] at h
    obtain ⟨ds, hds, rfl⟩ := map_eq_ok.1 h
    exact .list trivial (isRead_of_itemDocuments items hds)
  | .dict members, d, h => by
    rw [document] at h
    obtain ⟨ms, hms, rfl⟩ := map_eq_ok.1 h
    obtain ⟨hnames, hms⟩ := isRead_of_memberDocuments members hms
    exact .dict hnames hms
  | .broken, d, h => by cases h

theorem Outline.isRead_of_itemDocuments : ∀ (os : List Outline) {ds : List (Document Scalar)},
    itemDocuments os = .ok ds → ∀ d ∈ ds, IsRead d
  | [], _, h => by
    cases h
    exact List.forall_mem_nil _
  | o :: os, _, h => by
    rw [itemDocuments] at h
    obtain ⟨d, hd, h⟩ := bind_eq_ok.1 h
    obtain ⟨ds, hds, h⟩ := bind_eq_ok.1 h
    cases h
    exact List.forall_mem_cons.2 ⟨isRead_of_document o hd, isRead_of_itemDocuments os hds⟩

theorem Outline.isRead_of_memberDocuments : ∀ (os : List (Label × Outline)) {ms : Members},
    memberDocuments os = .ok ms → (∀ m ∈ ms, spellsNull m.1.toList = false) ∧ ∀ m ∈ ms, IsRead m.2
  | [], _, h => by
    cases h
    exact ⟨List.forall_mem_nil _, List.forall_mem_nil _⟩
  | (label, o) :: os, _, h => by
    rw [memberDocuments] at h
    obtain ⟨name, hname, h⟩ := bind_eq_ok.1 h
    obtain ⟨d, hd, h⟩ := bind_eq_ok.1 h
    obtain ⟨ms, hms, h⟩ := bind_eq_ok.1 h
    cases h
    obtain ⟨hnames, hms⟩ := isRead_of_memberDocuments os hms
    exact ⟨List.forall_mem_cons.2 ⟨Label.spellsNull_of_name_eq_ok hname, hnames⟩,
      List.forall_mem_cons.2 ⟨isRead_of_document o hd, hms⟩⟩

end

theorem exists_load_of_readWith_ok {layer : TextLayer} {h h' : Heap} {input : List UInt8} {v : Value}
    (hread : readWith layer h input = .ok (v, h')) : ∃ d, IsRead d ∧ d.load Scalar.value h = (v, h') := by
  rw [readWith] at hread
  split at hread
  · cases hread
  · split at hread
    · rename_i d hdoc
      obtain ⟨d', hd, hwhole⟩ := bind_eq_ok.1 hdoc
      split at hwhole <;> cases hwhole
      exact ⟨d, Outline.isRead_of_document _ hd, Except.ok.inj hread⟩
    · cases hread
    · cases hread

/-! ## Its tree -/

/-- A leaf that was read. -/
def IsReadLeaf (t : Tree) : Prop := ∃ a : Scalar, a.IsRead ∧ t = .ofLeaf a.value

theorem IsRead.over_tree {d : Document Scalar} (h : IsRead d) : (d.tree Scalar.value).Over IsReadLeaf IsNaming :=
  h.tree (fun a ha => ⟨by cases a <;> rfl, a, ha, rfl⟩) isNaming_ofPlace fun s hs => ⟨s, rfl, hs⟩

/-- **A leaf that was read stays one**: it is nil if it was, and YAML keeps it as it is from then on. -/
theorem IsReadLeaf.of_leaf {t : Tree} (h : IsReadLeaf t) : (leaf t).isTable = false ∧
    HasNil.isNil (leaf t) = HasNil.isNil t ∧ IsReadLeaf (leaf t) ∧ leaf (leaf t) = leaf t ∧ t.Carried (leaf t) := by
  obtain ⟨a, ha, rfl⟩ := h
  cases a with
  | null => exact ⟨rfl, rfl, ⟨.null, trivial, rfl⟩, rfl, .leaf rfl⟩
  | bool b => exact ⟨rfl, rfl, ⟨.bool b, trivial, rfl⟩, rfl, .leaf rfl⟩
  | integer i => exact ⟨rfl, rfl, ⟨.float (.ofInt i.toInt), trivial, rfl⟩, rfl, .number _⟩
  | float x => exact ⟨rfl, rfl, ⟨.float x, trivial, rfl⟩, rfl, .leaf rfl⟩
  | string s =>
    have hself : leaf (.ofLeaf (Scalar.string s).value) = .ofLeaf (Scalar.string s).value :=
      congrArg (fun a : Scalar => Tree.ofLeaf a.value) ha
    rw [hself, hself]
    exact ⟨rfl, rfl, ⟨.string s, ha, rfl⟩, rfl, .leaf rfl⟩

theorem IsReadLeaf.ofLeaf_ne {t : Tree} (h : IsReadLeaf t) (e : Error) : dialect.ofLeaf t ≠ .error e := by
  obtain ⟨a, -, rfl⟩ := h
  cases a <;> exact nofun

section

variable {t : Tree} (hover : t.Over IsReadLeaf IsNaming)
include hover

theorem over_yaml : t.yaml.Over IsReadLeaf IsNaming :=
  hover.normal (fun _ ht _ => ⟨ht.of_leaf.1, ht.of_leaf.2.2.1⟩) isNaming_ofPlace fun _ _ hk => hk.of_name

/-- **The second pass changes nothing.** -/
theorem yaml_yaml : t.yaml.yaml = t.yaml := by
  have hsettled : t.yaml.IsSettled false :=
    Tree.isSettled_normal (fun _ ht _ => ht.of_leaf.1) (fun _ ht => ht.of_leaf.2.1) hover
  have hkept : t.yaml.Over (fun t => leaf t = t) IsNaming :=
    hover.normal (fun _ ht _ => ⟨ht.of_leaf.1, ht.of_leaf.2.2.2.1⟩) isNaming_ofPlace fun _ _ hk => hk.of_name
  exact hsettled.normal_eq_self (fun _ h => h) hkept

/-- **The first pass changes nothing but numbers to doubles**, if the tree is settled. -/
theorem carried_yaml (hsettled : t.IsSettled false) : t.Carried t.yaml :=
  hsettled.carried_normal (fun _ ht _ => ht.of_leaf.2.2.2.2) hover

/-- **One pass**: what was read has a document, and where a text layer reads that back, what it gives has the normal form
of the tree. -/
theorem exists_pass (layers : TextLayers) {h : Heap} {root : TableId} (ht : h.tree? (.table root) = some t) (pretty : Bool) :
    ∃ doc, dialect.encode h ⟨pretty, none⟩ root = .ok doc ∧ (layers.yaml.ReadsBack doc →
      ∃ r, Format.yaml.relay layers ⟨pretty, none⟩ h root = .ok r ∧ h.Extends r.2 ∧
        ∀ h', r.2.Extends h' → h'.tree? (.table r.1) = some t.yaml) := by
  obtain ⟨doc, hdoc⟩ := hover.exists_ofTree_ok dialect (fun _ e ht => ht.ofLeaf_ne e) fun _ hk => hk.name?_ne_none
  refine ⟨doc, by rw [Dialect.encode_eq_ofTree _ rfl ht, hdoc], ?_⟩
  exact exists_relay_of_readsBack rfl ht hdoc (hover.forall_names dialect (fun _ _ hk => hk.spellsNull_eq_false) hdoc)

end

end Yaml
end Interchange
