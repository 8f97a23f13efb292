import Interchange.Proofs.Json.Reading
import Interchange.Proofs.Json.RoundTrip
/-!
# Settling — JSON that is read and written again

A list that holds a null is read as a table that is no sequence, an object without members as a table that is one, and a
name that stands twice is one key, so what is written of a text need not be the text.  But it stays what it is: reading it
gives the normal form of the table, and of that the very same document is made (`Dialect.ofTree_normal`), so writing again
gives the same text (`Json.exists_write_of_read_ok`).
-/
namespace Interchange

namespace Dialect

variable {α : Type} (d : Dialect α)

/-- **Where nil is kept no entry is left out.** -/
theorem encodeEntries_eq_nil_iff {β : Type} [HasNil β] (hk : d.keepsNil = true) {f : β → Except Error (Document α)} :
    ∀ {es : List (Key × β)} {ms ms' : Entries String (Document α)}, d.encodeEntries f ms es = .ok ms' →
      (ms' = [] ↔ ms = [] ∧ es = [])
  | [], _, _, h => by cases h; simp
  | (k, v) :: es, _, _, h => by
    rw [encodeEntries, hk, Bool.not_true, Bool.and_false] at h
    split at h
    · cases h
    · rw [if_neg Bool.false_ne_true] at h
      obtain ⟨doc, -, h⟩ := bind_eq_ok.1 h
      rw [encodeEntries_eq_nil_iff hk h]
      simp [Entries.set_ne_nil]

variable {value : α → Value}

/-- **Members come back from their trees**, if their documents do and every name stands once. -/
theorem encodeEntries_treeMembers (hk : d.keepsNil = true) : ∀ (ms : List (String × Document α))
    (before : Entries String (Document α)), (Entries.keys (before ++ ms)).Nodup →
      (∀ m ∈ ms, d.ofTree (m.2.tree value) = .ok m.2) →
        d.encodeEntries d.ofTree before (Document.treeMembers value ms) = .ok (before ++ ms)
  | [], before, _, _ => by rw [List.append_nil]; rfl
  | (name, doc) :: ms, before, hnd, hms => by
    have hnew : name ∉ Entries.keys before := fun hm => by
      rw [Entries.keys, List.map_append, List.nodup_append] at hnd
      exact hnd.2.2 _ hm name List.mem_cons_self rfl
    have happ : before ++ [(name, doc)] ++ ms = before ++ (name, doc) :: ms := List.append_assoc _ _ _
    rw [Document.treeMembers, encodeEntries, Key.name?]
    dsimp only
    rw [hk, Bool.not_true, Bool.and_false, if_neg Bool.false_ne_true, hms _ List.mem_cons_self, ok_bind,
      Entries.set_of_not_mem hnew, encodeEntries_treeMembers hk ms _ (by rw [happ]; exact hnd)
        (fun m hm => hms m (List.mem_cons_of_mem _ hm)), happ]

/-- **A document comes back from the normal form of its tree**, if leaves are their own normal form and nil is kept. -/
theorem ofTree_normal {leaf : Tree → Tree} {P : Tree → Prop} {K : Key → Prop} (hk : d.keepsNil = true)
    (hleaf : ∀ t doc, t.isTable = false → d.ofLeaf t = .ok doc → doc.tree value = leaf t)
    (hself : ∀ t : Tree, P t → leaf t = t) {t : Tree} (h : t.Over P K) : ∀ {doc : Document α}, d.ofTree t = .ok doc →
      d.ofTree (t.normal leaf d.keepsNil) = .ok doc := by
  induction t with
  | table es ih =>
    intro doc hdoc
    have hes := h.of_table.2
    have hnormal := d.tree_of_ofTree hleaf _ hdoc
    rw [ofTree_table] at hdoc
    rcases encodeForm_eq_ok d hdoc with ⟨ds, hF, hds, rfl⟩ | ⟨ms, hF, hms, rfl⟩
    · have hitem : ∀ t ∈ Entries.sequence es, HasNil.isNil (t.normal leaf d.keepsNil) = false ∧
          d.ofTree (t.normal leaf d.keepsNil) = d.ofTree t := fun t ht => by
        obtain ⟨k, hk⟩ := Entries.mem_of_mem_sequence ht
        obtain ⟨doc, hdoc⟩ := encodeItems_ok_of_mem hds t ht
        rw [Tree.isNil_normal (fun t ht => by rw [hself t ht]) (hes _ hk), ih _ hk (hes _ hk) hdoc, hdoc]
        exact ⟨Entries.isNil_of_mem_sequence ht, rfl⟩
      have hlen : ((Entries.sequence es).map (Tree.normal leaf d.keepsNil)).length < 2 ^ 63 := by
        rw [List.length_map, Entries.length_sequence.1]
        exact Entries.length_sequence.2
      rw [Tree.normal_table, hF]
      dsimp only
      rw [Tree.sequence, ofTree_table, Entries.form_numbered hlen (List.forall_mem_map.2 fun t ht => (hitem t ht).1),
        encodeForm, encodeItems_map]
      have hsame : encodeItems (fun t => d.ofTree (t.normal leaf d.keepsNil)) (Entries.sequence es) = .ok ds := by
        rw [← hds]
        exact encodeItems_congr (R := fun t u => t = u ∧ t ∈ Entries.sequence es) (fun t u htu => htu.1 ▸ (hitem t htu.2).2)
          (List.forall₂_same.2 fun t ht => ⟨rfl, ht⟩)
      rw [hsame]
      rfl
    · have hnil : (Entries.keys ([] : Entries String (Document α))).Nodup := .nil
      have hnd : (Entries.keys ms).Nodup := d.nodup_encodeEntries hnil hms
      have hnd' : (Entries.keys (Document.treeMembers value ms)).Nodup := by
        rw [Document.keys_treeMembers]
        exact hnd.map fun _ _ h => Key.string.inj h
      have hne : ms ≠ [] := fun hempty => by
        obtain ⟨-, rfl⟩ := (d.encodeEntries_eq_nil_iff hk hms).1 hempty
        cases hF
      have hback : ∀ m ∈ ms, d.ofTree (m.2.tree value) = .ok m.2 := by
        refine forall_encodeEntries (P := fun doc => d.ofTree (doc.tree value) = .ok doc) (fun e he doc hdoc => ?_)
          (List.forall_mem_nil _) hms
        rw [d.tree_of_ofTree hleaf _ hdoc]
        exact ih e he (hes e he) hdoc
      rw [← hnormal, Document.tree, Entries.ofList_eq_self hnd', ofTree_table, Entries.form_of_names, encodeForm,
        encodeEntries_treeMembers d hk ms [] hnd hback]
      · rfl
      · intro hempty
        rw [Document.treeMembers_eq, List.map_eq_nil_iff] at hempty
        exact hne hempty
      · intro k hk
        rw [Document.keys_treeMembers] at hk
        obtain ⟨name, -, rfl⟩ := List.mem_map.1 hk
        exact ⟨name, rfl⟩
  | _ =>
    intro doc hdoc
    exact (congrArg d.ofTree (hself _ (h.of_leaf rfl))).trans hdoc

end Dialect

/-- **A table nests no deeper than the document it was loaded from.** -/
theorem Document.Fits.height_le {α : Type} {value : α → Value} {p : α → Prop}
    (hvalue : ∀ a, (Tree.ofLeaf (value a)).height = 0) {room : Nat} {d : Document α} (h : d.Fits p room) :
    (d.tree value).height ≤ room := by
  induction h with
  | @scalar room a _ =>
    rw [tree, hvalue]
    exact Nat.zero_le room
  | list _ ih =>
    rw [tree, Tree.height]
    refine Nat.succ_le_succ (Tree.entriesHeight_le_of_forall fun e he => ?_)
    obtain ⟨d, hd, heq⟩ := mem_treeItems (Entries.snd_mem_of_mem_numbered (Entries.mem_of_mem_ofList he))
    rw [← heq]
    exact ih d hd
  | dict _ ih =>
    rw [tree, Tree.height]
    refine Nat.succ_le_succ (Tree.entriesHeight_le_of_forall fun e he => ?_)
    obtain ⟨m, hm, rfl⟩ := mem_treeMembers (Entries.mem_of_mem_ofList he)
    exact ih m hm

namespace Json

/-! ## What was read -/

/-- A leaf that was read: the value of a scalar, a double being finite. -/
def IsRead (t : Tree) : Prop := ∃ a : Scalar, a.IsFinite ∧ t = .ofLeaf a.value

theorem IsRead.leaf_eq_self {t : Tree} (h : IsRead t) : leaf t = t := by
  obtain ⟨a, ha, rfl⟩ := h
  cases a with
  | float x => exact if_pos ha
  | _ => rfl

theorem IsRead.ofLeaf_ne {t : Tree} (h : IsRead t) (e : Error) : dialect.ofLeaf t ≠ .error e := by
  obtain ⟨a, -, rfl⟩ := h
  cases a <;> exact nofun

/-- **No list of a document holds a null.** -/
def NoNullItem (d : Document Scalar) : Prop :=
  d.Over (fun _ => True) (fun _ => True) fun items => Document.scalar .null ∉ items

theorem isNil_tree_eq_false {d : Document Scalar} (h : d ≠ .scalar .null) : HasNil.isNil (d.tree Scalar.value) = false := by
  cases d with
  | scalar a =>
    cases a with
    | null => exact absurd rfl h
    | _ => rfl
  | _ => rfl

theorem exists_load_of_read_ok {h h' : Heap} {input : List UInt8} {v : Value} (hread : read h input = .ok (v, h')) :
    ∃ d, parse input = .ok d ∧ d.load Scalar.value h = (v, h') := by
  rw [read] at hread
  split at hread
  · cases hread
  · split at hread
    · rename_i d hparse
      exact ⟨d, hparse, Except.ok.inj hread⟩
    · cases hread

theorem read_of_parse_ok {input : List UInt8} {d : Document Scalar} (hparse : parse input = .ok d) (h : Heap) :
    read h input = .ok (d.load Scalar.value h) := by
  rw [read, hparse, if_neg]
  intro hempty
  rw [List.isEmpty_iff.1 hempty] at hparse
  cases hparse

/-- **JSON settles after one pass.**  A table that was read is written, in either layout; what is written is read again,
and writing that gives the same text.  The table read again has the very same tree, entries in the same order and numbers
of the same kind, if no list of the input holds a null; an input has fewer octets than there are places in a table. -/
theorem exists_write_of_read_ok {h h' : Heap} {input : List UInt8} {root : TableId}
    (hread : read h input = .ok (.table root, h')) (pretty : Bool) :
    ∃ d text, parse input = .ok d ∧ write h' ⟨pretty, none⟩ root = .ok text ∧ ∀ h₀, ∃ root₁ h₁,
      read h₀ (Utf8.encode text.toList) = .ok (.table root₁, h₁) ∧ write h₁ ⟨pretty, none⟩ root₁ = .ok text ∧
      (input.length < 2 ^ 63 → NoNullItem d →
        ∃ t, h'.tree? (.table root) = some t ∧ h₁.tree? (.table root₁) = some t) := by
  obtain ⟨d, hparse, hload⟩ := exists_load_of_read_ok hread
  obtain ⟨hfits, hover⟩ := isBounded_of_parse_ok hparse
  have ht : h'.tree? (.table root) = some (d.tree Scalar.value) := by
    have htree := (Document.tree?_load isTable_value d h).2 _ (.refl _)
    rwa [hload] at htree
  have hdata : (d.tree Scalar.value).Over IsRead fun k => k.name? ≠ none :=
    hover.tree (fun a ha => ⟨by cases a <;> rfl, a, ha, rfl⟩) (fun _ => nofun) fun _ _ => nofun
  obtain ⟨doc, hdoc⟩ := hdata.exists_ofTree_ok dialect (fun _ e ht => ht.ofLeaf_ne e) fun _ hk => hk
  have hheight : (d.tree Scalar.value).height ≤ maxNesting := hfits.height_le fun a => by cases a <;> rfl
  have hwrite : ∀ {h : Heap} {id : TableId} {t : Tree}, h.tree? (.table id) = some t → dialect.ofTree t = .ok doc →
      write h ⟨pretty, none⟩ id = .ok (String.ofList (print pretty doc)) := fun ht hdoc => by
    rw [write, Dialect.encode_eq_ofTree _ rfl ht, hdoc]
    rfl
  refine ⟨d, _, hparse, hwrite ht hdoc, fun h₀ => ?_⟩
  obtain ⟨root₁, h₁, hload₁, ht₁⟩ := dialect.exists_load isTable_value tree_ofLeaf ht hdoc h₀
  have htext : text ⟨pretty, none⟩ doc = .ok (String.ofList (print pretty doc)) := rfl
  have hread₁ := read_text (dialect_gives.fits _ hheight hdoc) htext h₀
  have hself : ∀ t : Tree, IsRead t → leaf t = t := fun _ h => h.leaf_eq_self
  refine ⟨root₁, h₁, hread₁.trans (congrArg Except.ok hload₁), ?_, fun hlen hnull => ⟨_, ht, ?_⟩⟩
  · exact hwrite ht₁ (dialect.ofTree_normal rfl tree_ofLeaf hself hdata hdoc)
  · have hsettled : (d.tree Scalar.value).IsSettled true := by
      refine (hover.and hnull).isSettled_tree (fun a => by cases a <;> rfl) (fun items hitems => ⟨?_, fun d hd => ?_⟩)
        fun _ _ => Bool.and_false _
      · exact Nat.lt_of_le_of_lt hitems.1 hlen
      · exact isNil_tree_eq_false fun heq => hitems.2 (heq ▸ hd)
    rw [ht₁]
    exact congrArg some (hsettled.normal_eq_self hself hdata)

/-- A name that stands twice, a list without a null and one null in an object. -/
def parcel : String := "\x7b\"a\":\x7b\x7d,\"b\":[1,2.5],\"a\":\x7b\"c\":null\x7d\x7d"

def parcelDocument : Document Scalar :=
  .dict [("a", .dict []), ("b", .list [.scalar (.integer 1), .scalar (.float ⟨0x4004000000000000⟩)]),
    ("a", .dict [("c", .scalar .null)])]

theorem noNullItem_parcel : NoNullItem parcelDocument := by
  refine .dict (fun _ _ => trivial) fun m hm => ?_
  simp only [List.mem_cons, List.not_mem_nil, or_false] at hm
  rcases hm with rfl | rfl | rfl
  · exact .dict nofun nofun
  · refine .list (by decide) fun d hd => ?_
    simp only [List.mem_cons, List.not_mem_nil, or_false] at hd
    rcases hd with rfl | rfl <;> exact .scalar trivial
  · exact .dict (fun _ _ => trivial) (List.forall_mem_singleton.2 (.scalar trivial))

/-- The name stands once in the text, which is read as the very same table; a list that holds a null becomes an object and
stays one. -/
theorem exists_write_of_read_ok_parcel :
    (∃ root h root₁ h₁ t, read .empty (Utf8.encode parcel.toList) = .ok (.table root, h) ∧
      read .empty (Utf8.encode "\x7b\"a\":\x7b\"c\":null\x7d,\"b\":[1,2.5]\x7d".toList) = .ok (.table root₁, h₁) ∧
        h.tree? (.table root) = some t ∧ h₁.tree? (.table root₁) = some t) ∧
    ∃ root₁ h₁, read .empty (Utf8.encode "\x7b\"1\":1,\"2\":null\x7d".toList) = .ok (.table root₁, h₁) ∧
      write h₁ ⟨false, none⟩ root₁ = .ok "\x7b\"1\":1,\"2\":null\x7d" := by
  have hparse : parse (Utf8.encode parcel.toList) = .ok parcelDocument := by decide +kernel
  have hgap : parse (Utf8.encode "[1,null]".toList) = .ok (.list [.scalar (.integer 1), .scalar .null]) := by
    decide +kernel
  constructor
  · have hread := read_of_parse_ok hparse .empty
    obtain ⟨d, text, hd, htext, hagain⟩ := exists_write_of_read_ok hread false
    cases hparse.symm.trans hd
    have hwrite : write (parcelDocument.load Scalar.value .empty).2 ⟨false, none⟩ ⟨3⟩ =
        .ok "\x7b\"a\":\x7b\"c\":null\x7d,\"b\":[1,2.5]\x7d" := by decide +kernel
    cases hwrite.symm.trans htext
    obtain ⟨root₁, h₁, hread₁, -, hsame⟩ := hagain .empty
    obtain ⟨t, ht, ht₁⟩ := hsame (by decide +kernel) noNullItem_parcel
    exact ⟨_, _, root₁, h₁, t, hread, hread₁, ht, ht₁⟩
  · have hread := read_of_parse_ok hgap .empty
    obtain ⟨d, text, -, htext, hagain⟩ := exists_write_of_read_ok hread false
    have hwrite : write ((Document.list [.scalar (.integer 1), .scalar .null]).load Scalar.value .empty).2 ⟨false, none⟩ ⟨0⟩ =
        .ok "\x7b\"1\":1,\"2\":null\x7d" := by decide +kernel
    cases hwrite.symm.trans htext
    obtain ⟨root₁, h₁, hread₁, hwrite₁, -⟩ := hagain .empty
    exact ⟨root₁, h₁, hread₁, hwrite₁⟩

end Json
end Interchange
