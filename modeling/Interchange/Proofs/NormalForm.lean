import Interchange.Proofs.Documents
import Interchange.Proofs.Encoding
/-!
# Normal form — what a tree is once it was written and read

A document has lists and dictionaries only, and a dictionary has names only.  The normal form of a tree says what is left
of it then: a sequence has the keys 1, 2, …, and any other table has the names of its keys, a repeated name with its
first place and its last value.  A document has the normal form of the tree it was made of (`tree_of_ofTree`).
-/
namespace Interchange

namespace Tree

/-- A table of values at the places 1, 2, … -/
def sequence (ts : List Tree) : Tree := .table (Entries.numbered ts)

/-- An entry under the name of its key, with a value in place of its own.  One that holds nil may be left out. -/
def named (keepsNil : Bool) (e : Key × Tree × Tree) : Option (Key × Tree) :=
  if HasNil.isNil e.2.1 && !keepsNil then none else e.1.name?.map fun name => (.string name, e.2.2)

/-- **The normal form of a tree**, given that of its leaves. -/
def normal (leaf : Tree → Tree) (keepsNil : Bool) : Tree → Tree :=
  fold leaf sequence fun es => .table (Entries.ofList (es.filterMap (named keepsNil)))

/-- **The normal form of a table** goes by its form. -/
theorem normal_table (leaf : Tree → Tree) (keepsNil : Bool) (es : List (Key × Tree)) :
    normal leaf keepsNil (.table es) =
      match Entries.form es with
      | .sequence items => sequence (items.map (normal leaf keepsNil))
      | .mapping es =>
        .table (Entries.ofList (es.filterMap fun e => named keepsNil (e.1, e.2, normal leaf keepsNil e.2))) := by
  rw [normal, fold_table]
  cases Entries.form es with
  | sequence items => rfl
  | mapping es => simp only [List.filterMap_map]; rfl

/-- Whether a tree is a table. -/
def isTable : Tree → Bool
  | table _ => true
  | _ => false

end Tree

namespace Document

variable {α : Type} {value : α → Value}

theorem keys_treeMembers (ms : List (String × Document α)) :
    Entries.keys (treeMembers value ms) = (Entries.keys ms).map Key.string := by
  rw [treeMembers_eq, Entries.keys, Entries.keys, List.map_map, List.map_map]
  rfl

theorem treeMembers_set (name : String) (d : Document α) (ms : Entries String (Document α)) :
    treeMembers value (ms.set name d) = Entries.set (.string name) (d.tree value) (treeMembers value ms) := by
  rw [treeMembers_eq, treeMembers_eq]
  exact Entries.map_set (fun _ _ h => Key.string.inj h) (tree value) name d ms

end Document

namespace Dialect

variable {α : Type} (d : Dialect α)

/-- The document of a leaf is a scalar. -/
theorem exists_scalar_of_ofTree {t : Tree} (ht : t.isTable = false) {doc : Document α} (hdoc : d.ofTree t = .ok doc) :
    ∃ a, doc = .scalar a := by
  cases t with
  | table => cases ht
  | nil =>
    change d.encodeValue (fun _ => .error .cyclicStructure) .nil = _ at hdoc
    rw [encodeValue] at hdoc
    split at hdoc <;> cases hdoc
    exact ⟨_, rfl⟩
  | foreign => cases hdoc
  | _ => cases hdoc; exact ⟨_, rfl⟩

section

variable {β : Type}

theorem treeItems_encodeItems {value : α → Value} {f : β → Except Error (Document α)} {g : β → Tree} :
    ∀ {bs : List β} {ds : List (Document α)}, (∀ b ∈ bs, ∀ doc, f b = .ok doc → doc.tree value = g b) →
      encodeItems f bs = .ok ds → Document.treeItems value ds = bs.map g
  | [], _, _, h => by cases h; rfl
  | b :: bs, ds, hg, h => by
    rw [encodeItems] at h
    obtain ⟨doc, hdoc, h⟩ := bind_eq_ok.1 h
    obtain ⟨ds', hds, h⟩ := bind_eq_ok.1 h
    cases h
    rw [Document.treeItems, hg b List.mem_cons_self doc hdoc,
      treeItems_encodeItems (fun b hb => hg b (List.mem_cons_of_mem _ hb)) hds, List.map_cons]

theorem nodup_encodeEntries [HasNil β] {f : β → Except Error (Document α)} :
    ∀ {es : List (Key × β)} {ms ms' : Entries String (Document α)}, (Entries.keys ms).Nodup →
      d.encodeEntries f ms es = .ok ms' → (Entries.keys ms').Nodup
  | [], _, _, hnd, h => by cases h; exact hnd
  | (k, v) :: es, ms, ms', hnd, h => by
    rw [encodeEntries] at h
    split at h
    · cases h
    · split at h
      · exact nodup_encodeEntries hnd h
      · obtain ⟨doc, -, h⟩ := bind_eq_ok.1 h
        exact nodup_encodeEntries (Entries.nodup_keys_set hnd) h

theorem encodeEntries_eq_nil [HasNil β] (hd : d.keepsNil = false) {f : β → Except Error (Document α)} :
    ∀ {es : List (Key × β)} {ms ms' : Entries String (Document α)}, d.encodeEntries f ms es = .ok ms' →
      (ms' = [] ↔ ms = [] ∧ ∀ e ∈ es, HasNil.isNil e.2 = true)
  | [], _, _, h => by cases h; simp
  | (k, v) :: es, ms, ms', h => by
    rw [encodeEntries] at h
    split at h
    · cases h
    · rw [hd, Bool.not_false, Bool.and_true] at h
      split at h
      · rename_i hn
        rw [encodeEntries_eq_nil hd h, List.forall_mem_cons]
        simp only [hn, true_and]
      · rename_i hn
        obtain ⟨doc, -, h⟩ := bind_eq_ok.1 h
        rw [encodeEntries_eq_nil hd h, List.forall_mem_cons]
        exact ⟨fun hms => absurd hms.1 (Entries.set_ne_nil _ _ _), fun hms => absurd hms.2.1 hn⟩

/-- **Encoded entries are the named entries set one after another.** -/
theorem treeMembers_encodeEntries {value : α → Value} {f : Tree → Except Error (Document α)} {g : Tree → Tree} :
    ∀ {es : List (Key × Tree)} {ms ms' : Entries String (Document α)},
      (∀ e ∈ es, ∀ doc, f e.2 = .ok doc → doc.tree value = g e.2) → d.encodeEntries f ms es = .ok ms' →
        Document.treeMembers value ms' = Entries.setAll (Document.treeMembers value ms)
          (es.filterMap fun e => Tree.named d.keepsNil (e.1, e.2, g e.2))
  | [], _, _, _, h => by cases h; rfl
  | (k, v) :: es, ms, ms', hg, h => by
    have ih : ∀ {ms : Entries String (Document α)}, d.encodeEntries f ms es = .ok ms' →
        Document.treeMembers value ms' = Entries.setAll (Document.treeMembers value ms)
          (es.filterMap fun e => Tree.named d.keepsNil (e.1, e.2, g e.2)) :=
      treeMembers_encodeEntries fun e he => hg e (List.mem_cons_of_mem _ he)
    rw [encodeEntries] at h
    rw [List.filterMap_cons, Tree.named]
    cases hk : k.name? with
    | none => rw [hk] at h; cases h
    | some name =>
      rw [hk] at h
      dsimp only at h ⊢
      split at h
      · rename_i hn
        rw [if_pos hn]
        exact ih h
      · rename_i hn
        obtain ⟨doc, hdoc, h⟩ := bind_eq_ok.1 h
        rw [if_neg hn, ih h, Document.treeMembers_set, hg _ List.mem_cons_self doc hdoc]
        rfl

end

/-- **A document has the normal form of the tree it was made of**, if those of leaves have. -/
theorem tree_of_ofTree {value : α → Value} {leaf : Tree → Tree}
    (hleaf : ∀ t doc, t.isTable = false → d.ofLeaf t = .ok doc → doc.tree value = leaf t) (t : Tree) :
    ∀ {doc : Document α}, d.ofTree t = .ok doc → doc.tree value = t.normal leaf d.keepsNil := by
  induction t with
  | table es ih =>
    intro doc h
    rw [ofTree_table] at h
    rw [Tree.normal_table]
    rcases encodeForm_eq_ok d h with ⟨ds, hF, hds, rfl⟩ | ⟨ms, hF, hms, rfl⟩
    · have hitems : ∀ t ∈ Entries.sequence es, ∀ doc, d.ofTree t = .ok doc →
          doc.tree value = t.normal leaf d.keepsNil := fun t ht doc hdoc => by
        obtain ⟨k, hm⟩ := Entries.mem_of_mem_sequence ht
        exact ih _ hm hdoc
      have hmap := treeItems_encodeItems hitems hds
      rw [hF, Document.tree, hmap]
      dsimp only
      rw [Tree.sequence, Entries.ofList_eq_self]
      refine Entries.nodup_numbered ?_
      rw [List.length_map, Entries.length_sequence.1]
      exact Entries.length_sequence.2
    · have hentries : ∀ e ∈ es, ∀ doc, d.ofTree e.2 = .ok doc → doc.tree value = e.2.normal leaf d.keepsNil :=
        fun e he doc hdoc => ih e he hdoc
      have hmap := treeMembers_encodeEntries d hentries hms
      rw [hF, Document.tree, Entries.ofList_eq_self, hmap]
      · rfl
      · rw [Document.keys_treeMembers]
        have hnil : (Entries.keys ([] : Entries String (Document α))).Nodup := .nil
        exact (nodup_encodeEntries d hnil hms).map fun _ _ h => Key.string.inj h
  | _ => exact fun h => hleaf _ _ rfl h

/-- **A dialect all of whose scalars are such.** -/
structure Gives (p : α → Prop) : Prop where
  null : ∀ a, d.null = some a → p a
  bool : ∀ b, p (d.bool b)
  number : ∀ n, p (d.number n)
  string : ∀ s, p (d.string s)

variable {d}

theorem forall_mem_encodeEntries {β : Type} [HasNil β] {P : String × Document α → Prop}
    {f : β → Except Error (Document α)} : ∀ {es : List (Key × β)} {ms ms' : Entries String (Document α)},
      (∀ e ∈ es, ∀ name doc, e.1.name? = some name → f e.2 = .ok doc → P (name, doc)) → (∀ m ∈ ms, P m) →
        d.encodeEntries f ms es = .ok ms' → ∀ m ∈ ms', P m
  | [], _, _, _, hms, h => by cases h; exact hms
  | (k, v) :: es, ms, ms', hes, hms, h => by
    have hes' := fun e he => hes e (List.mem_cons_of_mem _ he)
    rw [encodeEntries] at h
    split at h
    · cases h
    · rename_i name hname
      split at h
      · exact forall_mem_encodeEntries hes' hms h
      · obtain ⟨doc, hdoc, h⟩ := bind_eq_ok.1 h
        refine forall_mem_encodeEntries hes' (fun m hm => ?_) h
        rcases Entries.mem_set hm with rfl | hm
        · exact hes _ List.mem_cons_self name doc hname hdoc
        · exact hms m hm

theorem forall_encodeEntries {β : Type} [HasNil β] {P : Document α → Prop} {f : β → Except Error (Document α)}
    {es : List (Key × β)} {ms ms' : Entries String (Document α)} (hes : ∀ e ∈ es, ∀ doc, f e.2 = .ok doc → P doc)
    (hms : ∀ m ∈ ms, P m.2) : d.encodeEntries f ms es = .ok ms' → ∀ m ∈ ms', P m.2 :=
  forall_mem_encodeEntries (P := fun m => P m.2) (fun e he _ doc _ => hes e he doc) hms

theorem forall_encodeItems {β : Type} {P : Document α → Prop} {f : β → Except Error (Document α)} :
    ∀ {bs : List β} {ds : List (Document α)}, (∀ b ∈ bs, ∀ doc, f b = .ok doc → P doc) →
      encodeItems f bs = .ok ds → ∀ doc ∈ ds, P doc
  | [], _, _, h => by cases h; exact nofun
  | b :: bs, ds, hbs, h => by
    rw [encodeItems] at h
    obtain ⟨doc, hdoc, h⟩ := bind_eq_ok.1 h
    obtain ⟨ds', hds, h⟩ := bind_eq_ok.1 h
    cases h
    intro doc' hm
    rcases List.mem_cons.1 hm with rfl | hm
    · exact hbs b List.mem_cons_self _ hdoc
    · exact forall_encodeItems (fun b hb => hbs b (List.mem_cons_of_mem _ hb)) hds _ hm

/-- **A document nests no deeper than the tree it was made of.** -/
theorem Gives.fits {p : α → Prop} (hd : d.Gives p) (t : Tree) :
    ∀ {room : Nat} {doc : Document α}, t.height ≤ room → d.ofTree t = .ok doc → doc.Fits p room := by
  induction t with
  | nil =>
    intro room doc _ h
    change d.encodeValue (fun _ => .error .cyclicStructure) .nil = _ at h
    rw [encodeValue] at h
    split at h
    · cases h; exact .scalar (hd.null _ (by assumption))
    · cases h
  | bool b => intro room doc _ h; cases h; exact .scalar (hd.bool b)
  | number n => intro room doc _ h; cases h; exact .scalar (hd.number n)
  | string s => intro room doc _ h; cases h; exact .scalar (hd.string s)
  | foreign kind handle => intro room doc _ h; cases h
  | table es ih =>
    intro room doc hroom h
    obtain ⟨room, rfl⟩ : ∃ n, room = n + 1 := ⟨room - 1, by rw [Tree.height] at hroom; omega⟩
    have hlt : ∀ e ∈ es, e.2.height ≤ room := fun e he => by have := Tree.height_lt_of_mem he; omega
    rw [ofTree_table] at h
    rcases encodeForm_eq_ok d h with ⟨ds, -, hds, rfl⟩ | ⟨ms, -, hms, rfl⟩
    · refine .list (forall_encodeItems (fun t ht doc hdoc => ?_) hds)
      obtain ⟨k, hm⟩ := Entries.mem_of_mem_sequence ht
      exact ih _ hm (hlt _ hm) hdoc
    · exact .dict (forall_encodeEntries (fun e he doc hdoc => ih e he (hlt e he) hdoc)
        (fun _ hm => absurd hm List.not_mem_nil) hms)

theorem Gives.fits_membersOfTree {p : α → Prop} (hd : d.Gives p) {t : Tree} {room : Nat} {ms : List (String × Document α)}
    (hroom : t.height ≤ room + 1) (h : d.membersOfTree t = .ok ms) : (Document.dict ms).Fits p (room + 1) := by
  cases t with
  | table es =>
    have hlt : ∀ e ∈ es, e.2.height ≤ room := fun e he => by have := Tree.height_lt_of_mem he; omega
    exact .dict (forall_encodeEntries (fun e he doc hdoc => hd.fits _ (hlt e he) hdoc)
      (fun _ hm => absurd hm List.not_mem_nil) h)
  | _ => cases h; exact .dict fun _ hm => absurd hm List.not_mem_nil

end Dialect

/-! ## Loading -/

theorem Heap.exists_table_of_tree? {h : Heap} {v : Value} {ts : List (Key × Tree)} (ht : h.tree? v = some (.table ts)) :
    ∃ id, v = .table id := by
  cases v with
  | table id => exact ⟨id, rfl⟩
  | _ => rw [tree?, unfold] at ht; cases ht

theorem Tree.exists_normal_table (leaf : Tree → Tree) (keepsNil : Bool) (es : List (Key × Tree)) :
    ∃ ts, normal leaf keepsNil (.table es) = .table ts := by
  rw [normal_table]
  cases Entries.form es with
  | sequence items => exact ⟨_, rfl⟩
  | mapping es => exact ⟨_, rfl⟩

/-- **A document loaded anywhere is a table with the normal form** of the table it was made of, whatever is added later. -/
theorem Dialect.exists_load_extends {α : Type} (d : Dialect α) {value : α → Value} {leaf : Tree → Tree}
    (hvalue : ∀ a, (value a).isTable = false)
    (hleaf : ∀ t doc, t.isTable = false → d.ofLeaf t = .ok doc → doc.tree value = leaf t)
    {h : Heap} {root : TableId} {t : Tree} (ht : h.tree? (.table root) = some t) {doc : Document α}
    (hdoc : d.ofTree t = .ok doc) (h₀ : Heap) :
    ∃ id h', doc.load value h₀ = (.table id, h') ∧ h₀.Extends h' ∧
      ∀ h'', h'.Extends h'' → h''.tree? (.table id) = some (t.normal leaf d.keepsNil) := by
  obtain ⟨ts, rfl, -⟩ := Heap.unfold_table.1 ht
  obtain ⟨hext, hload⟩ := Document.tree?_load hvalue doc h₀
  rw [d.tree_of_ofTree hleaf _ hdoc] at hload
  obtain ⟨ts', hts'⟩ := Tree.exists_normal_table leaf d.keepsNil ts
  obtain ⟨id, hid⟩ := Heap.exists_table_of_tree? ((hload _ (.refl _)).trans (congrArg some hts'))
  exact ⟨id, _, Prod.ext hid rfl, hext, fun h'' hh'' => by rw [← hid]; exact hload h'' hh''⟩

theorem Dialect.exists_load {α : Type} (d : Dialect α) {value : α → Value} {leaf : Tree → Tree}
    (hvalue : ∀ a, (value a).isTable = false)
    (hleaf : ∀ t doc, t.isTable = false → d.ofLeaf t = .ok doc → doc.tree value = leaf t)
    {h : Heap} {root : TableId} {t : Tree} (ht : h.tree? (.table root) = some t) {doc : Document α}
    (hdoc : d.ofTree t = .ok doc) (h₀ : Heap) :
    ∃ id h', doc.load value h₀ = (.table id, h') ∧ h'.tree? (.table id) = some (t.normal leaf d.keepsNil) := by
  obtain ⟨id, h', hload, -, htree⟩ := d.exists_load_extends hvalue hleaf ht hdoc h₀
  exact ⟨id, h', hload, htree h' (.refl _)⟩

end Interchange
