import Interchange.Proofs.Tree
import Interchange.Table.Heap
import Mathlib.Data.List.Perm.Subperm
import Mathlib.Logic.Relation
/-!
# Unfolding — the tree of a value

A value that reaches no cycle unfolds to a finite tree, its tables spelled out as often as they are met.  No path through
distinct tables is longer than the heap, so unfolding as deep as that finds the tree exactly when there is no cycle
(`tree?_isSome_iff`), and unfolding at any depth that suffices finds the same one (`tree?_of_unfold`).
-/
namespace Interchange
namespace Heap

/-- Entries with what is made of their values, if something is made of each. -/
def spellEntries (value : Value → Option Tree) : List (Key × Value) → Option (List (Key × Tree))
  | [] => some []
  | (k, v) :: es => do
    let t ← value v
    let ts ← spellEntries value es
    return (k, t) :: ts

/-- The tree of a value, if its tables nest at most `depth` deep. -/
def unfold (h : Heap) : (depth : Nat) → Value → Option Tree
  | _, .nil => some .nil
  | _, .bool b => some (.bool b)
  | _, .number n => some (.number n)
  | _, .string s => some (.string s)
  | _, .foreign kind handle => some (.foreign kind handle)
  | 0, .table _ => none
  | depth + 1, .table id => (spellEntries (h.unfold depth) (h.get id).entries).map .table

/-- **The tree of a value**, if it has a finite one. -/
def tree? (h : Heap) (v : Value) : Option Tree := h.unfold (h.size + 1) v

/-! ## Reachability -/

/-- A table held by an entry of another. -/
def Child (h : Heap) (a b : TableId) : Prop := ∃ k, (k, Value.table b) ∈ (h.get a).entries

/-- A table reached through entries. -/
def Reaches (h : Heap) : TableId → TableId → Prop := Relation.ReflTransGen h.Child

/-- **A table from which a cycle is reached.** -/
def HasCycle (h : Heap) (root : TableId) : Prop := ∃ a, h.Reaches root a ∧ Relation.TransGen h.Child a a

theorem spellEntries_eq_some {f : Value → Option Tree} : ∀ {es : List (Key × Value)} {ts : List (Key × Tree)},
    spellEntries f es = some ts ↔ Entries.Matches (fun v t => f v = some t) es ts
  | [], ts => by
    rw [spellEntries]
    constructor
    · rintro ⟨⟩; exact .nil
    · intro h; cases h; rfl
  | (k, v) :: es, ts => by
    rw [spellEntries]
    constructor
    · intro h
      obtain ⟨t, ht, h⟩ := Option.bind_eq_some_iff.1 h
      obtain ⟨ts', hts, h⟩ := Option.bind_eq_some_iff.1 h
      cases h
      exact .cons ⟨rfl, ht⟩ (spellEntries_eq_some.1 hts)
    · intro h
      cases h with
      | @cons _ f _ _ hef hes =>
        obtain ⟨k', t⟩ := f
        obtain ⟨rfl, ht⟩ : k = k' ∧ _ = some t := hef
        simp [ht, spellEntries_eq_some.2 hes]

theorem unfold_table {h : Heap} {n : Nat} {id : TableId} {t : Tree} :
    h.unfold (n + 1) (.table id) = some t ↔
      ∃ ts, t = .table ts ∧ Entries.Matches (fun v t => h.unfold n v = some t) (h.get id).entries ts := by
  rw [unfold, Option.map_eq_some_iff]
  constructor
  · rintro ⟨ts, hts, rfl⟩; exact ⟨ts, rfl, spellEntries_eq_some.1 hts⟩
  · rintro ⟨ts, rfl, hts⟩; exact ⟨ts, spellEntries_eq_some.2 hts, rfl⟩

theorem isNil_of_unfold {h : Heap} {n : Nat} {v : Value} {t : Tree} (ht : h.unfold n v = some t) :
    HasNil.isNil v = HasNil.isNil t := by
  cases v with
  | table id =>
    cases n with
    | zero => cases ht
    | succ n => obtain ⟨ts, rfl, -⟩ := unfold_table.1 ht; rfl
  | _ => rw [unfold] at ht; injection ht with ht; rw [← ht]; rfl

theorem unfold_mono {h : Heap} : ∀ {n m : Nat} {v : Value} {t : Tree}, n ≤ m → h.unfold n v = some t →
    h.unfold m v = some t
  | 0, m, v, t, _, ht => by
    cases v with
    | table id => cases ht
    | _ => rw [unfold] at ht ⊢; exact ht
  | n + 1, 0, _, _, hnm, _ => absurd hnm (by omega)
  | n + 1, m + 1, v, t, hnm, ht => by
    cases v with
    | table id =>
      obtain ⟨ts, rfl, hts⟩ := unfold_table.1 ht
      exact unfold_table.2 ⟨ts, rfl, hts.imp fun _ _ _ h => unfold_mono (Nat.le_of_succ_le_succ hnm) h⟩
    | _ => rw [unfold] at ht ⊢; exact ht

/-! ## Cycles -/

theorem exists_unfold_of_transGen {h : Heap} {a b : TableId} (hab : Relation.TransGen h.Child a b) :
    ∀ {n : Nat} {t : Tree}, h.unfold n (.table a) = some t → ∃ m < n, ∃ t', h.unfold m (.table b) = some t' := by
  have hchild : ∀ {a b : TableId} {n : Nat} {t : Tree}, h.Child a b → h.unfold n (.table a) = some t →
      ∃ m < n, ∃ t', h.unfold m (.table b) = some t' := by
    intro a b n t hc ht
    cases n with
    | zero => cases ht
    | succ n =>
      obtain ⟨k, hk⟩ := hc
      obtain ⟨ts, -, hts⟩ := unfold_table.1 ht
      obtain ⟨t', -, ht'⟩ := hts.exists_mem hk
      exact ⟨n, Nat.lt_succ_self n, t', ht'⟩
  induction hab with
  | single hc => exact hchild hc
  | tail _ hc ih =>
    intro n t ht
    obtain ⟨m, hm, t', ht'⟩ := ih ht
    obtain ⟨m', hm', ht''⟩ := hchild hc ht'
    exact ⟨m', Nat.lt_trans hm' hm, ht''⟩

theorem unfold_eq_none_of_cycle {h : Heap} {a : TableId} (ha : Relation.TransGen h.Child a a) :
    ∀ n, h.unfold n (.table a) = none := by
  intro n
  induction n using Nat.strongRecOn with
  | _ n ih =>
    cases ht : h.unfold n (.table a) with
    | none => rfl
    | some t =>
      obtain ⟨m, hm, t', ht'⟩ := exists_unfold_of_transGen ha ht
      rw [ih m hm] at ht'
      cases ht'

/-- **What unfolds reaches no cycle.** -/
theorem not_hasCycle_of_unfold {h : Heap} {n : Nat} {id : TableId} {t : Tree}
    (ht : h.unfold n (.table id) = some t) : ¬ h.HasCycle id := by
  rintro ⟨a, hr, hc⟩
  rcases Relation.reflTransGen_iff_eq_or_transGen.1 hr with rfl | hr
  · rw [unfold_eq_none_of_cycle hc] at ht; cases ht
  · obtain ⟨m, -, t', ht'⟩ := exists_unfold_of_transGen hr ht
    rw [unfold_eq_none_of_cycle hc] at ht'; cases ht'

theorem length_le_size {h : Heap} {ids : List TableId} (hnd : ids.Nodup) (hin : ∀ id ∈ ids, id.index < h.size) :
    ids.length ≤ h.size := by
  have hinj : (ids.map TableId.index).Nodup :=
    hnd.map fun a b hab => by cases a; cases b; cases hab; rfl
  have hsub : ids.map TableId.index ⊆ List.range h.size := fun i hi => by
    obtain ⟨id, hid, rfl⟩ := List.mem_map.1 hi
    exact List.mem_range.2 (hin id hid)
  have := (hinj.subperm hsub).length_le
  rwa [List.length_map, List.length_range] at this

theorem index_lt_size_of_mem {h : Heap} {id : TableId} {e : Key × Value} (he : e ∈ (h.get id).entries) :
    id.index < h.size := by
  by_contra hlt
  have hnone : h.tables[id.index]? = none := Array.getElem?_eq_none (Nat.le_of_not_lt hlt)
  rw [Heap.get, hnone] at he
  cases he

/-- **Without a cycle the tree is found** below open tables `ids`, once the depth makes up for the tables not open.  Open
tables lead to the one that is unfolded, so it is none of them; each takes one of the heap. -/
theorem exists_unfold_below {h : Heap} {root : TableId} (hac : ¬ h.HasCycle root) :
    ∀ (n : Nat) (ids : List TableId) (a : TableId), h.Reaches root a → (∀ b ∈ ids, Relation.TransGen h.Child b a) →
      ids.Nodup → (∀ b ∈ ids, b.index < h.size) → h.size < ids.length + n → ∃ t, h.unfold n (.table a) = some t
  -- the depth is used up only after more tables are open than the heap has
  | 0, ids, _, _, _, hnd, hin, hn => by have := length_le_size hnd hin; omega
  | n + 1, ids, a, hra, hids, hnd, hin, hn => by
    have hall : ∀ e ∈ (h.get a).entries, ∃ t, h.unfold n e.2 = some t := by
      rintro ⟨k, v⟩ he
      cases v with
      | table b =>
        have hab : h.Child a b := ⟨k, he⟩
        have ha : a ∉ ids := fun hm => hac ⟨a, hra, hids a hm⟩
        refine exists_unfold_below hac n (a :: ids) b (hra.tail hab) (fun c hc => ?_) (List.nodup_cons.2 ⟨ha, hnd⟩)
          (fun c hc => ?_) (by simp only [List.length_cons]; omega)
        · rcases List.mem_cons.1 hc with rfl | hc
          · exact .single hab
          · exact (hids c hc).tail hab
        · rcases List.mem_cons.1 hc with rfl | hc
          · exact index_lt_size_of_mem he
          · exact hin c hc
      | _ => rw [unfold]; exact ⟨_, rfl⟩
    obtain ⟨ts, hts⟩ := Entries.Matches.exists_of_forall (R := fun v t => h.unfold n v = some t) hall
    exact ⟨.table ts, unfold_table.2 ⟨ts, rfl, hts⟩⟩

theorem exists_tree?_of_not_hasCycle {h : Heap} {root : TableId} (hac : ¬ h.HasCycle root) :
    ∃ t, h.tree? (.table root) = some t :=
  exists_unfold_below hac (h.size + 1) [] root .refl (fun _ hb => nomatch hb) .nil (fun _ hb => nomatch hb) (by simp)

/-- **A table has a tree exactly when it reaches no cycle.** -/
theorem tree?_isSome_iff {h : Heap} {root : TableId} : (h.tree? (.table root)).isSome ↔ ¬ h.HasCycle root := by
  rw [Option.isSome_iff_exists]
  exact ⟨fun ⟨_, ht⟩ => not_hasCycle_of_unfold ht, exists_tree?_of_not_hasCycle⟩

/-- **Unfolding at any depth that suffices finds the tree.** -/
theorem tree?_of_unfold {h : Heap} {n : Nat} {v : Value} {t : Tree} (ht : h.unfold n v = some t) :
    h.tree? v = some t := by
  cases v with
  | table id =>
    obtain ⟨t', ht'⟩ := exists_tree?_of_not_hasCycle (not_hasCycle_of_unfold ht)
    have h1 := unfold_mono (Nat.le_max_left n (h.size + 1)) ht
    have h2 := unfold_mono (Nat.le_max_right n (h.size + 1)) ht'
    rw [h1] at h2
    rw [ht', h2]
  | _ => rw [unfold] at ht; rw [tree?, unfold]; exact ht

end Heap
end Interchange
