import Interchange.Proofs.Documents
import Mathlib.Data.List.Pairwise
/-!
# Growth — the tables that loading a document makes

A loaded value is a tree of new tables: every table inside it was made for it and is reached along one path only, so
none is shared and none contains itself.  Its tables have names or the places 1, 2, … as keys, and hold nothing of the
host (`Document.isGrown_load`).
-/
namespace Interchange

/-- A table all of whose keys are names. -/
def Table.IsNamed (t : Table) : Prop := ∀ k ∈ Entries.keys t.entries, ∃ s, k = .string s

/-- **A table whose keys are the places 1, 2, … in order**, as far as there are integers for them. -/
def Table.IsListed (t : Table) : Prop :=
  (∀ k ∈ Entries.keys t.entries, ∃ i, k = .integer i) ∧
    (t.size < 2 ^ 63 → Entries.keys t.entries = (List.range t.size).map fun i => Key.ofPlace (i + 1))

/-- **A table of data**: named or listed, and without a thing of the host. -/
structure Table.IsPlain (t : Table) : Prop where
  data : ∀ e ∈ t.entries, ∀ kind handle, e.2 ≠ .foreign kind handle
  keyed : t.IsNamed ∨ t.IsListed

theorem Table.isNamed_ofPairs {ps : List (Key × Value)} (hps : ∀ k ∈ Entries.keys ps, ∃ s, k = .string s) :
    (ofPairs ps).IsNamed := fun _ hk => hps _ (Entries.mem_keys_ofList.1 hk)

theorem Table.isListed_ofValues (vs : List Value) : (ofValues vs).IsListed := by
  constructor
  · intro k hk
    have hk : k ∈ Entries.keys (Entries.numbered vs) := Entries.mem_keys_ofList.1 hk
    rw [Entries.keys_numbered] at hk
    obtain ⟨i, -, rfl⟩ := List.mem_map.1 hk
    exact ⟨_, rfl⟩
  · intro hsize
    have hlen : vs.length < 2 ^ 63 := by
      by_contra hle
      have : 2 ^ 63 ≤ (ofValues vs).size := Entries.le_length_ofList_numbered (Nat.not_lt.1 hle) (by decide)
      omega
    have hself : (ofValues vs).entries = Entries.numbered vs := Entries.ofList_eq_self (Entries.nodup_numbered hlen)
    rw [size, hself, Entries.keys_numbered, Entries.numbered, List.length_mapIdx, Entries.placeKeys]

namespace Heap

/-! ## Paths -/

/-- **A way from one table to another** along the keys of entries. -/
inductive Path (h : Heap) : TableId → List Key → TableId → Prop where
  | here (a : TableId) : Path h a [] a
  | through {a b c : TableId} {k : Key} {ks : List Key} (hk : (k, Value.table b) ∈ (h.get a).entries)
    (hb : Path h b ks c) : Path h a (k :: ks) c

theorem Path.append {h : Heap} {a b c : TableId} {p q : List Key} (hp : h.Path a p b) (hq : h.Path b q c) :
    h.Path a (p ++ q) c := by
  induction hp with
  | here => exact hq
  | through hk _ ih => exact .through hk (ih hq)

theorem exists_path_of_reaches {h : Heap} {a b : TableId} (hab : h.Reaches a b) : ∃ p, h.Path a p b := by
  induction hab with
  | refl => exact ⟨[], .here a⟩
  | tail _ hbc ih =>
    obtain ⟨p, hp⟩ := ih
    obtain ⟨k, hk⟩ := hbc
    exact ⟨p ++ [k], hp.append (.through hk (.here _))⟩

/-- A table inside a value, at the end of a path. -/
def Inside (h : Heap) (v : Value) (p : List Key) (id : TableId) : Prop := ∃ root, v = .table root ∧ h.Path root p id

/-- Values without a table inside both. -/
def Apart (h : Heap) (v w : Value) : Prop := ∀ p q id, h.Inside v p id → ¬ h.Inside w q id

/-- **A value that is a tree of tables between two sizes of the heap**: every table inside it is one of those, is reached
along one path only, and is a table of data; and the value is no thing of the host itself. -/
structure IsGrown (h : Heap) (lo hi : Nat) (v : Value) : Prop where
  data : ∀ kind handle, v ≠ .foreign kind handle
  new : ∀ p id, h.Inside v p id → lo ≤ id.index ∧ id.index < hi
  alone : ∀ p q id, h.Inside v p id → h.Inside v q id → p = q
  plain : ∀ p id, h.Inside v p id → (h.get id).IsPlain

variable {h : Heap} {lo mid hi : Nat} {v w : Value}

theorem IsGrown.mono {lo' hi' : Nat} (hv : h.IsGrown lo hi v) (hlo : lo' ≤ lo) (hhi : hi ≤ hi') :
    h.IsGrown lo' hi' v where
  data := hv.data
  new p id hid := by have := hv.new p id hid; omega
  alone := hv.alone
  plain := hv.plain

theorem IsGrown.apart (hv : h.IsGrown lo mid v) (hw : h.IsGrown mid hi w) : h.Apart v w := fun p q id hp hq => by
  have := hv.new p id hp
  have := hw.new q id hq
  omega

theorem isGrown_leaf (hv : v.isTable = false) (hdata : ∀ kind handle, v ≠ .foreign kind handle) :
    h.IsGrown lo hi v := by
  have hno : ∀ p id, ¬ h.Inside v p id := by
    rintro p id ⟨root, rfl, -⟩
    cases hv
  exact ⟨hdata, fun p id hid => absurd hid (hno p id), fun p _ id hid => absurd hid (hno p id),
    fun p id hid => absurd hid (hno p id)⟩

/-- **A new table of grown values that are apart is grown.** -/
theorem isGrown_table {id : TableId} {ps : List (Key × Value)} (hlo : lo ≤ id.index) (hget : h.get id = .ofPairs ps)
    (hkeyed : (Table.ofPairs ps).IsNamed ∨ (Table.ofPairs ps).IsListed)
    (hps : ∀ v ∈ ps.map Prod.snd, h.IsGrown lo id.index v) (hapart : (ps.map Prod.snd).Pairwise h.Apart) :
    h.IsGrown lo (id.index + 1) (.table id) := by
  have hmem : ∀ {e}, e ∈ (h.get id).entries → e ∈ ps ∧ h.IsGrown lo id.index e.2 := fun {e} he => by
    rw [hget] at he
    have he := Entries.mem_of_mem_ofList he
    exact ⟨he, hps e.2 (List.mem_map_of_mem he)⟩
  have hnew : ∀ {k b ks c}, (k, .table b) ∈ (h.get id).entries → h.Path b ks c → lo ≤ c.index ∧ c.index < id.index :=
    fun hk hb => (hmem hk).2.new _ _ ⟨_, rfl, hb⟩
  have hplain : (h.get id).IsPlain := ⟨fun e he => (hmem he).2.data, by rwa [hget]⟩
  constructor
  · exact nofun
  · rintro p c ⟨_, ⟨⟩, hp⟩
    cases hp with
    | here => omega
    | through hk hb => have := hnew hk hb; omega
  · rintro p q c ⟨_, ⟨⟩, hp⟩ ⟨_, ⟨⟩, hq⟩
    -- two ways to one table leave this one by the same entry, as the values of its entries are apart
    cases hp with
    | here =>
      cases hq with
      | here => rfl
      | through hk hb => have := hnew hk hb; omega
    | @through _ b _ k ks hk hb =>
      cases hq with
      | here => have := hnew hk hb; omega
      | @through _ b' _ k' ks' hk' hb' =>
        by_cases heq : (k, Value.table b) = (k', .table b')
        · cases heq
          rw [(hmem hk).2.alone ks ks' c ⟨b, rfl, hb⟩ ⟨b, rfl, hb'⟩]
        · have : Std.Symm fun e f : Key × Value => h.Apart e.2 f.2 := ⟨fun e f hef p q c hp hq => hef q p c hq hp⟩
          have hne := (List.pairwise_map.1 hapart).forall (hmem hk).1 (hmem hk').1 heq
          exact absurd ⟨b', rfl, hb'⟩ (hne ks ks' c ⟨b, rfl, hb⟩)
  · rintro p c ⟨_, ⟨⟩, hp⟩
    cases hp with
    | here => exact hplain
    | through hk hb => exact (hmem hk).2.plain _ _ ⟨_, rfl, hb⟩

theorem Extends.size_le {h h' : Heap} (hext : h.Extends h') : h.size ≤ h'.size := by
  by_contra hlt
  rw [Nat.not_le] at hlt
  have hsome := hext h'.size _ (Array.getElem?_eq_getElem hlt)
  have hnone : h'.tables[h'.size]? = none := Array.getElem?_eq_none (Nat.le_refl _)
  rw [hnone] at hsome
  cases hsome

theorem size_alloc (h : Heap) (t : Table) : (h.alloc t).2.size = h.size + 1 := Array.size_push _

theorem Extends.get_alloc {h h' : Heap} {t : Table} (hext : Extends (h.alloc t).2 h') : h'.get (h.alloc t).1 = t := by
  have ht : (h.alloc t).2.tables[h.tables.size]? = some t := Array.getElem?_push_size
  rw [Heap.get, show (h.alloc t).1.index = h.tables.size from rfl, hext _ _ ht, Option.getD_some]

end Heap

/-! ## Documents -/

namespace Document

variable {α : Type} {leaf : α → Value}

theorem exists_name_of_loadMembers : ∀ (ms : List (String × Document α)) (h : Heap),
    ∀ k ∈ Entries.keys (loadMembers leaf ms h).1, ∃ s, k = .string s
  | [], _, _, hk => nomatch hk
  | (name, d) :: ms, h, k, hk => by
    rcases List.mem_cons.1 hk with rfl | hk
    · exact ⟨name, rfl⟩
    · exact exists_name_of_loadMembers ms _ k hk

mutual

/-- **A loaded value is grown**: it is a tree of tables that were not there before. -/
theorem isGrown_load (hleaf : ∀ a, (leaf a).isTable = false) (hdata : ∀ a kind handle, leaf a ≠ .foreign kind handle) :
    ∀ (d : Document α) (h h' : Heap), (load leaf d h).2.Extends h' →
      h'.IsGrown h.size (load leaf d h).2.size (load leaf d h).1
  | .scalar a, h, h', _ => Heap.isGrown_leaf (hleaf a) (hdata a)
  | .list items, h, h', hext => by
    obtain ⟨hitems, hapart⟩ := isGrown_loadItems hleaf hdata items h h' ((Heap.extends_alloc _ _).trans hext)
    rw [← Entries.map_snd_numbered (loadItems leaf items h).1] at hitems hapart
    exact (Heap.isGrown_table (tree?_loadItems hleaf items h).1.size_le hext.get_alloc
      (.inr (Table.isListed_ofValues _)) hitems hapart).mono (Nat.le_refl _) (Nat.le_of_eq (Heap.size_alloc _ _).symm)
  | .dict members, h, h', hext => by
    obtain ⟨hmembers, hapart⟩ := isGrown_loadMembers hleaf hdata members h h' ((Heap.extends_alloc _ _).trans hext)
    have hnames := Table.isNamed_ofPairs (@exists_name_of_loadMembers _ leaf members h)
    exact (Heap.isGrown_table (tree?_loadMembers hleaf members h).1.size_le hext.get_alloc (.inl hnames) hmembers
      hapart).mono (Nat.le_refl _) (Nat.le_of_eq (Heap.size_alloc _ _).symm)

theorem isGrown_loadItems (hleaf : ∀ a, (leaf a).isTable = false)
    (hdata : ∀ a kind handle, leaf a ≠ .foreign kind handle) : ∀ (ds : List (Document α)) (h h' : Heap),
      (loadItems leaf ds h).2.Extends h' →
        (∀ v ∈ (loadItems leaf ds h).1, h'.IsGrown h.size (loadItems leaf ds h).2.size v) ∧
          (loadItems leaf ds h).1.Pairwise h'.Apart
  | [], _, _, _ => ⟨nofun, .nil⟩
  | d :: ds, h, h', hext => by
    have hload := (tree?_load hleaf d h).1.size_le
    have hrest := (tree?_loadItems hleaf ds (load leaf d h).2).1
    have hd := isGrown_load hleaf hdata d h h' (hrest.trans hext)
    obtain ⟨hds, hapart⟩ := isGrown_loadItems hleaf hdata ds (load leaf d h).2 h' hext
    refine ⟨fun v hv => ?_, List.pairwise_cons.2 ⟨fun v hv => hd.apart (hds v hv), hapart⟩⟩
    rcases List.mem_cons.1 hv with rfl | hv
    · exact hd.mono (Nat.le_refl _) hrest.size_le
    · exact (hds v hv).mono hload (Nat.le_refl _)

theorem isGrown_loadMembers (hleaf : ∀ a, (leaf a).isTable = false)
    (hdata : ∀ a kind handle, leaf a ≠ .foreign kind handle) : ∀ (ms : List (String × Document α)) (h h' : Heap),
      (loadMembers leaf ms h).2.Extends h' →
        (∀ v ∈ (loadMembers leaf ms h).1.map Prod.snd, h'.IsGrown h.size (loadMembers leaf ms h).2.size v) ∧
          ((loadMembers leaf ms h).1.map Prod.snd).Pairwise h'.Apart
  | [], _, _, _ => ⟨nofun, .nil⟩
  | (name, d) :: ms, h, h', hext => by
    have hload := (tree?_load hleaf d h).1.size_le
    have hrest := (tree?_loadMembers hleaf ms (load leaf d h).2).1
    have hd := isGrown_load hleaf hdata d h h' (hrest.trans hext)
    obtain ⟨hms, hapart⟩ := isGrown_loadMembers hleaf hdata ms (load leaf d h).2 h' hext
    refine ⟨fun v hv => ?_, List.pairwise_cons.2 ⟨fun v hv => hd.apart (hms v hv), hapart⟩⟩
    rcases List.mem_cons.1 hv with rfl | hv
    · exact hd.mono (Nat.le_refl _) hrest.size_le
    · exact (hms v hv).mono hload (Nat.le_refl _)

end

end Document
end Interchange
