import Interchange.Proofs.Same
/-!
# Carried — data that goes on as the same data

A tree is carried on by another if that has the same keys, in whatever order, and at each of them the same data, except
that a number may have become the double nearest to it.  Carrying goes on and on (`Tree.Carried.trans`), which equality of
values does not: integers past 2 ^ 53 that are not equal may have one double.  A value whose tree is carried on by that of
another is equal to it all the same (`Heap.equal_of_carried`).
-/
namespace Interchange
namespace Tree

/-- **A tree that holds the data of another**, its numbers perhaps as doubles. -/
inductive Carried : Tree → Tree → Prop where
  | leaf {t : Tree} (h : t.isTable = false) : Carried t t
  | number (n : Number) : Carried (.number n) (.number (.float n.toFloat))
  | table {es fs : List (Key × Tree)} (hkeys : ∀ k, k ∈ Entries.keys es ↔ k ∈ Entries.keys fs)
    (hvalues : ∀ k t u, (k, t) ∈ es → (k, u) ∈ fs → Carried t u) : Carried (.table es) (.table fs)

theorem Carried.trans {t u v : Tree} (htu : t.Carried u) : u.Carried v → t.Carried v := by
  induction htu generalizing v with
  | leaf h => exact id
  | number n =>
    intro huv
    cases huv with
    | leaf => exact .number n
    | number => exact .number n
  | table hkeys _ ih =>
    intro huv
    cases huv with
    | leaf h => cases h
    | table hkeys' hvalues' =>
      refine .table (fun k => (hkeys k).trans (hkeys' k)) fun k t v ht hv => ?_
      obtain ⟨u, hu⟩ := Entries.exists_mem_of_mem_keys ((hkeys k).1 (Entries.mem_keys_of_mem ht))
      exact ih k t u ht hu (hvalues' k u v hu hv)

/-- **A tree nests no deeper than one that it carries on.** -/
theorem Carried.height_le {t u : Tree} (h : t.Carried u) : u.height ≤ t.height := by
  induction h with
  | leaf => exact Nat.le_refl _
  | number => exact Nat.le_refl _
  | table hkeys _ ih =>
    rw [height, height]
    refine Nat.succ_le_succ (entriesHeight_le_of_forall fun f hf => ?_)
    obtain ⟨t, ht⟩ := Entries.exists_mem_of_mem_keys ((hkeys f.1).2 (Entries.mem_keys_of_mem hf))
    exact (ih f.1 t f.2 ht hf).trans (entriesHeight_le ht)

/-- **Entries in another order, with values carried on.** -/
theorem Carried.of_perm {es gs fs : List (Key × Tree)} (hnd : (Entries.keys es).Nodup) (hperm : es.Perm gs)
    (h : Entries.Matches Carried gs fs) : Carried (.table es) (.table fs) := by
  have hkeys : (Entries.keys es).Perm (Entries.keys fs) := h.keys_eq ▸ hperm.map _
  refine .table (fun k => hkeys.mem_iff) fun k t u ht hu => ?_
  obtain ⟨u', hu', hcarried⟩ := h.exists_mem (hperm.mem_iff.1 ht)
  rwa [Entries.eq_of_mem_of_mem (hkeys.nodup_iff.1 hnd) hu hu']

/-- **A table with one entry is carried on by such a table.** -/
theorem Carried.of_singleton {k : Key} {t u : Tree} (h : (Tree.table [(k, t)]).Carried u) (hu : u.Distinct) :
    ∃ t', u = .table [(k, t')] ∧ t.Carried t' ∧ t'.Distinct := by
  cases h with
  | leaf h => cases h
  | @table _ fs hkeys hvalues =>
    obtain ⟨hnd, hfs⟩ := hu.of_table
    have hperm := (List.perm_ext_iff_of_nodup (List.nodup_singleton k) hnd).2 hkeys
    obtain ⟨⟨k', t'⟩, rfl⟩ : ∃ f, fs = [f] := List.length_eq_one_iff.1 (by simpa [Entries.keys] using hperm.length_eq.symm)
    obtain rfl : k' = k := List.mem_singleton.1 (hperm.mem_iff.2 List.mem_cons_self)
    exact ⟨t', rfl, hvalues k' t t' List.mem_cons_self List.mem_cons_self, hfs _ List.mem_cons_self⟩

theorem Carried.refl {t : Tree} (h : t.Distinct) : t.Carried t := by
  induction h with
  | leaf h => exact .leaf h
  | table hkeys _ ih => exact .of_perm hkeys (.refl _) (List.forall₂_same.2 fun e he => ⟨rfl, ih e he⟩)

end Tree

/-! ## Numbers -/

namespace Number

/-- **A number is the same as the double nearest to it.** -/
theorem same_toFloat (n : Number) : n.Same (.float n.toFloat) := by
  cases hnan : n.toFloat.isNaN with
  | false => exact .inl (by cases n <;> simp_all [numericEq, Binary64.numericEq, toFloat])
  | true => exact .inr ⟨hnan, hnan⟩

end Number

theorem Tree.Carried.isNumeric {t u : Tree} (h : t.Carried u) : t.IsNumeric → u.IsNumeric := by
  induction h with
  | leaf => exact id
  | number n =>
    intro ht
    cases ht with
    | leaf _ hnan =>
      refine .leaf rfl fun x hx => ?_
      cases hx
      exact n.isNaN_toFloat fun x hx => hnan x (by rw [hx])
  | table hkeys _ ih =>
    refine fun ht => .table fun f hf => ?_
    obtain ⟨t, hkt⟩ := Entries.exists_mem_of_mem_keys ((hkeys f.1).2 (Entries.mem_keys_of_mem hf))
    exact ih f.1 t f.2 hkt hf (ht.of_table _ hkt)

/-! ## Equality -/

theorem Tree.Carried.same {t u : Tree} (h : t.Carried u) : t.Same u := by
  induction h with
  | leaf h => exact .leaf h
  | number n => exact .number n.same_toFloat
  | table hkeys _ ih => exact .table hkeys ih

/-- **Values are equal if the tree of one is carried on by that of the other**, either way round. -/
theorem Heap.equal_of_carried {h : Heap} {v w : Value} {t u : Tree} (hv : h.tree? v = some t) (hw : h.tree? w = some u)
    (hcarried : t.Carried u) (hnum : t.IsNumeric) : h.equal v w = true ∧ h.equal w v = true :=
  have heq : h.equal v w = true := equalWithin_of_same hv hw hcarried.same hnum
  ⟨heq, h.equal_comm v w ▸ heq⟩

end Interchange
