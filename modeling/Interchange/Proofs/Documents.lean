import Interchange.Document
import Interchange.Proofs.Pairs
import Interchange.Proofs.Unfolding
/-!
# Documents — the tree that a document is loaded as

Loading a document only adds tables to the heap, and the new ones hold what the document says whatever is added after
them.  So the value that is loaded has the tree of the document (`tree?_load`).
-/
namespace Interchange

namespace Heap

/-- **A heap that has all the tables of another.** -/
def Extends (h h' : Heap) : Prop := ∀ (i : Nat) (t : Table), h.tables[i]? = some t → h'.tables[i]? = some t

theorem Extends.refl (h : Heap) : Extends h h := fun _ _ ht => ht

theorem Extends.trans {h h' h'' : Heap} (h1 : Extends h h') (h2 : Extends h' h'') : Extends h h'' :=
  fun i t ht => h2 i t (h1 i t ht)

theorem extends_alloc (h : Heap) (t : Table) : Extends h (h.alloc t).2 := by
  intro i t' ht
  have hi := (Array.getElem?_eq_some_iff.1 ht).1
  show (h.tables.push t)[i]? = some t'
  rw [Array.getElem?_push, if_neg (Nat.ne_of_lt hi), ht]

/-- **A new table keeps the tree of its entries.** -/
theorem Extends.tree?_alloc {h h' : Heap} {t : Table} {ts : List (Key × Tree)} (hext : Extends (h.alloc t).2 h')
    (hts : Entries.Matches (fun v t => h'.tree? v = some t) t.entries ts) :
    h'.tree? (.table (h.alloc t).1) = some (.table ts) := by
  have hget : h'.get (h.alloc t).1 = t := by
    have ht : (h.alloc t).2.tables[h.tables.size]? = some t := Array.getElem?_push_size
    show (h'.tables[h.tables.size]?).getD .empty = t
    rw [hext _ _ ht]
    rfl
  exact tree?_of_unfold (unfold_table.2 ⟨ts, rfl, by rw [hget]; exact hts⟩)

end Heap

/-- The tree of a value that is no table. -/
def Tree.ofLeaf : Value → Tree
  | .nil => .nil
  | .bool b => .bool b
  | .number n => .number n
  | .string s => .string s
  | .foreign kind handle => .foreign kind handle
  | .table _ => .table []

theorem Heap.tree?_leaf {h : Heap} {v : Value} (hv : v.isTable = false) : h.tree? v = some (.ofLeaf v) := by
  cases v with
  | table id => cases hv
  | _ => rw [tree?, unfold]; rfl

namespace Document

variable {α : Type}

/-- **A document whose scalars are such and whose containers nest at most so deep.** -/
inductive Fits (p : α → Prop) : Nat → Document α → Prop where
  | scalar {room : Nat} {a : α} (h : p a) : Fits p room (.scalar a)
  | list {room : Nat} {items : List (Document α)} (h : ∀ d ∈ items, Fits p room d) : Fits p (room + 1) (.list items)
  | dict {room : Nat} {members : List (String × Document α)} (h : ∀ m ∈ members, Fits p room m.2) :
    Fits p (room + 1) (.dict members)

mutual

/-- **The tree of a document.** -/
def tree (leaf : α → Value) : Document α → Tree
  | .scalar a => .ofLeaf (leaf a)
  | .list items => .table (Entries.ofList (Entries.numbered (treeItems leaf items)))
  | .dict members => .table (Entries.ofList (treeMembers leaf members))

def treeItems (leaf : α → Value) : List (Document α) → List Tree
  | [] => []
  | d :: ds => tree leaf d :: treeItems leaf ds

def treeMembers (leaf : α → Value) : List (String × Document α) → List (Key × Tree)
  | [] => []
  | (name, d) :: ds => (.string name, tree leaf d) :: treeMembers leaf ds

end

mutual

/-- The names in a document, at every level. -/
def names : Document α → List String
  | .scalar _ => []
  | .list items => itemNames items
  | .dict members => memberNames members

def itemNames : List (Document α) → List String
  | [] => []
  | d :: ds => names d ++ itemNames ds

def memberNames : List (String × Document α) → List String
  | [] => []
  | (name, d) :: ms => name :: (names d ++ memberNames ms)

end

theorem forall_itemNames {P : String → Prop} : ∀ {ds : List (Document α)}, (∀ d ∈ ds, ∀ name ∈ d.names, P name) →
    ∀ name ∈ itemNames ds, P name
  | [], _ => nofun
  | d :: ds, h => by
    rw [itemNames, List.forall_mem_append]
    exact ⟨h d List.mem_cons_self, forall_itemNames fun d hd => h d (List.mem_cons_of_mem _ hd)⟩

theorem forall_memberNames {P : String → Prop} : ∀ {ms : List (String × Document α)},
    (∀ m ∈ ms, P m.1 ∧ ∀ name ∈ m.2.names, P name) → ∀ name ∈ memberNames ms, P name
  | [], _ => nofun
  | (name, d) :: ms, h => by
    obtain ⟨hname, hd⟩ := h _ List.mem_cons_self
    rw [memberNames, List.forall_mem_cons, List.forall_mem_append]
    exact ⟨hname, hd, forall_memberNames fun m hm => h m (List.mem_cons_of_mem _ hm)⟩

mutual

/-- A document with other scalars. -/
def map {β : Type} (f : α → β) : Document α → Document β
  | .scalar a => .scalar (f a)
  | .list items => .list (mapItems f items)
  | .dict members => .dict (mapMembers f members)

def mapItems {β : Type} (f : α → β) : List (Document α) → List (Document β)
  | [] => []
  | d :: ds => map f d :: mapItems f ds

def mapMembers {β : Type} (f : α → β) : List (String × Document α) → List (String × Document β)
  | [] => []
  | (name, d) :: ms => (name, map f d) :: mapMembers f ms

end

mutual

theorem load_map {β : Type} (f : α → β) (leaf : β → Value) : ∀ (d : Document α) (h : Heap),
    load leaf (d.map f) h = load (leaf ∘ f) d h
  | .scalar a, h => rfl
  | .list items, h => by rw [map, load, load, loadItems_map f leaf items h]
  | .dict members, h => by rw [map, load, load, loadMembers_map f leaf members h]

theorem loadItems_map {β : Type} (f : α → β) (leaf : β → Value) : ∀ (ds : List (Document α)) (h : Heap),
    loadItems leaf (mapItems f ds) h = loadItems (leaf ∘ f) ds h
  | [], h => rfl
  | d :: ds, h => by
    rw [mapItems, loadItems, loadItems, load_map f leaf d h]
    simp only [loadItems_map f leaf ds]

theorem loadMembers_map {β : Type} (f : α → β) (leaf : β → Value) : ∀ (ms : List (String × Document α)) (h : Heap),
    loadMembers leaf (mapMembers f ms) h = loadMembers (leaf ∘ f) ms h
  | [], h => rfl
  | (name, d) :: ms, h => by
    rw [mapMembers, loadMembers, loadMembers, load_map f leaf d h]
    simp only [loadMembers_map f leaf ms]

end

theorem treeItems_eq (leaf : α → Value) : ∀ ds : List (Document α), treeItems leaf ds = ds.map (tree leaf)
  | [] => rfl
  | d :: ds => by rw [treeItems, treeItems_eq leaf ds, List.map_cons]

theorem treeMembers_eq (leaf : α → Value) : ∀ ms : List (String × Document α),
    treeMembers leaf ms = ms.map fun m => (.string m.1, tree leaf m.2)
  | [] => rfl
  | (name, d) :: ms => by rw [treeMembers, treeMembers_eq leaf ms, List.map_cons]

section

variable {leaf : α → Value}

mutual

/-- **A loaded value has the tree of its document**, in the heap it was loaded into and in every later one. -/
theorem tree?_load (hleaf : ∀ a, (leaf a).isTable = false) : ∀ (d : Document α) (h : Heap), h.Extends (load leaf d h).2 ∧
    ∀ h', (load leaf d h).2.Extends h' → h'.tree? (load leaf d h).1 = some (d.tree leaf)
  | .scalar a, h => ⟨.refl h, fun h' _ => Heap.tree?_leaf (hleaf a)⟩
  | .list items, h => by
    obtain ⟨hext, hitems⟩ := tree?_loadItems hleaf items h
    refine ⟨hext.trans (Heap.extends_alloc _ _), fun h' hh' => Heap.Extends.tree?_alloc hh' ?_⟩
    exact (Entries.matches_numbered (hitems h' ((Heap.extends_alloc _ _).trans hh'))).ofList
  | .dict members, h => by
    obtain ⟨hext, hmembers⟩ := tree?_loadMembers hleaf members h
    refine ⟨hext.trans (Heap.extends_alloc _ _), fun h' hh' => Heap.Extends.tree?_alloc hh' ?_⟩
    exact (hmembers h' ((Heap.extends_alloc _ _).trans hh')).ofList

theorem tree?_loadItems (hleaf : ∀ a, (leaf a).isTable = false) : ∀ (ds : List (Document α)) (h : Heap),
    h.Extends (loadItems leaf ds h).2 ∧ ∀ h', (loadItems leaf ds h).2.Extends h' →
      List.Forall₂ (fun v t => h'.tree? v = some t) (loadItems leaf ds h).1 (treeItems leaf ds)
  | [], h => ⟨.refl h, fun _ _ => .nil⟩
  | d :: ds, h => by
    obtain ⟨hext, hd⟩ := tree?_load hleaf d h
    obtain ⟨hext', hds⟩ := tree?_loadItems hleaf ds (load leaf d h).2
    exact ⟨hext.trans hext', fun h' hh' => .cons (hd h' (hext'.trans hh')) (hds h' hh')⟩

theorem tree?_loadMembers (hleaf : ∀ a, (leaf a).isTable = false) : ∀ (ms : List (String × Document α)) (h : Heap),
    h.Extends (loadMembers leaf ms h).2 ∧ ∀ h', (loadMembers leaf ms h).2.Extends h' →
      Entries.Matches (fun v t => h'.tree? v = some t) (loadMembers leaf ms h).1 (treeMembers leaf ms)
  | [], h => ⟨.refl h, fun _ _ => .nil⟩
  | (name, d) :: ms, h => by
    obtain ⟨hext, hd⟩ := tree?_load hleaf d h
    obtain ⟨hext', hms⟩ := tree?_loadMembers hleaf ms (load leaf d h).2
    exact ⟨hext.trans hext', fun h' hh' => .cons ⟨rfl, hd h' (hext'.trans hh')⟩ (hms h' hh')⟩

end

end

end Document
end Interchange
