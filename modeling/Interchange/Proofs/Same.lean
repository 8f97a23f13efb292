import Interchange.Proofs.NormalForm
import Interchange.Proofs.Rounding
/-!
# Same — equality of values as a relation of trees

Trees are the same if they have the same keys and the same data at each, numbers being compared as numbers and doubles that
are no number counting as one.  As long as there is no such double, values with trees that are the same are those that
are equal in the heap (`Heap.equal_iff_same`).
-/
namespace Interchange

/-! ## Numbers -/

theorem Binary64.numericEq_comm (x y : Binary64) : x.numericEq y = y.numericEq x := by
  rw [numericEq, numericEq, Bool.and_comm (!x.isNaN), Bool.and_comm x.isZero, BEq.comm (a := x)]

namespace Number

theorem isFinite_toFloat (n : Number) (hn : ∀ x, n = .float x → x.isFinite = true) : n.toFloat.isFinite = true := by
  cases n with
  | float x => exact hn x rfl
  | integer i =>
    have hlow := Int64.le_toInt i
    have hhigh := Int64.toInt_lt i
    have h64 : twoTo 64 = 18446744073709551616 := rfl
    exact Binary64.isFinite_ofInt (by omega)

theorem isNaN_toFloat (n : Number) (hn : ∀ x, n = .float x → x.isNaN = false) : n.toFloat.isNaN = false := by
  cases n with
  | float x => exact hn x rfl
  | integer i => exact Binary64.isNaN_of_isFinite (isFinite_toFloat _ nofun)

theorem numericEq_comm (m n : Number) : m.numericEq n = n.numericEq m := by
  cases m <;> cases n <;> first | exact Binary64.numericEq_comm _ _ | exact BEq.comm

/-- **Numbers that are equal**, or both no number. -/
def Same (m n : Number) : Prop := m.numericEq n = true ∨ m.toFloat.isNaN = true ∧ n.toFloat.isNaN = true

theorem Same.symm {m n : Number} (h : m.Same n) : n.Same m := by
  rw [Same, numericEq_comm, And.comm]
  exact h

end Number

/-! ## Trees -/

namespace Tree

/-- **Trees that are the same as data.** -/
inductive Same : Tree → Tree → Prop where
  | leaf {t : Tree} (h : t.isTable = false) : Same t t
  | number {m n : Number} (h : m.Same n) : Same (.number m) (.number n)
  | table {es fs : List (Key × Tree)} (hkeys : ∀ k, k ∈ Entries.keys es ↔ k ∈ Entries.keys fs)
    (hvalues : ∀ k t u, (k, t) ∈ es → (k, u) ∈ fs → Same t u) : Same (.table es) (.table fs)

/-- **A tree none of whose tables has a key twice.** -/
inductive Distinct : Tree → Prop where
  | leaf {t : Tree} (h : t.isTable = false) : Distinct t
  | table {es : List (Key × Tree)} (hkeys : (Entries.keys es).Nodup) (h : ∀ e ∈ es, Distinct e.2) : Distinct (.table es)

/-- **A tree without a double that is no number.** -/
inductive IsNumeric : Tree → Prop where
  | leaf {t : Tree} (h : t.isTable = false) (hnan : ∀ x, t = .number (.float x) → x.isNaN = false) : IsNumeric t
  | table {es : List (Key × Tree)} (h : ∀ e ∈ es, IsNumeric e.2) : IsNumeric (.table es)

theorem Distinct.of_table {es : List (Key × Tree)} (h : (Tree.table es).Distinct) :
    (Entries.keys es).Nodup ∧ ∀ e ∈ es, e.2.Distinct := by
  cases h with
  | leaf h => cases h
  | table hkeys h => exact ⟨hkeys, h⟩

theorem IsNumeric.of_leaf {t : Tree} (h : t.IsNumeric) (hleaf : t.isTable = false) :
    ∀ x, t = .number (.float x) → x.isNaN = false := by
  cases h with
  | leaf _ hnan => exact hnan
  | table => cases hleaf

theorem IsNumeric.of_table {es : List (Key × Tree)} (h : (Tree.table es).IsNumeric) : ∀ e ∈ es, e.2.IsNumeric := by
  cases h with
  | leaf h => cases h
  | table h => exact h

theorem Same.symm {t u : Tree} (h : t.Same u) : u.Same t := by
  induction h with
  | leaf h => exact .leaf h
  | number h => exact .number h.symm
  | table hkeys _ ih => exact .table (fun k => (hkeys k).symm) fun k t u ht hu => ih k u t hu ht

theorem Same.refl {t : Tree} (h : t.Distinct) : t.Same t := by
  induction h with
  | leaf h => exact .leaf h
  | table hkeys _ ih =>
    refine .table (fun _ => .rfl) fun k t u ht hu => ?_
    obtain rfl := Entries.eq_of_mem_of_mem hkeys ht hu
    exact ih _ ht

end Tree

/-! ## Trees in a heap -/

namespace Heap

theorem eq_table_of_unfold {h : Heap} {n : Nat} {v : Value} {ts : List (Key × Tree)}
    (ht : h.unfold n v = some (.table ts)) : ∃ id m, v = .table id ∧ n = m + 1 ∧
      Entries.Matches (fun v t => h.unfold m v = some t) (h.get id).entries ts := by
  cases v with
  | table id =>
    cases n with
    | zero => cases ht
    | succ m =>
      obtain ⟨ts', hts, hm⟩ := unfold_table.1 ht
      cases hts
      exact ⟨id, m, rfl, rfl, hm⟩
  | _ => rw [unfold] at ht; cases ht

theorem eq_leaf_of_unfold {h : Heap} {n : Nat} {v : Value} {t : Tree} (ht : h.unfold n v = some t)
    (hleaf : t.isTable = false) : v.isTable = false ∧ t = .ofLeaf v := by
  cases v with
  | table id =>
    cases n with
    | zero => cases ht
    | succ n => obtain ⟨ts, rfl, -⟩ := unfold_table.1 ht; cases hleaf
  | _ => rw [unfold] at ht; cases ht; exact ⟨rfl, rfl⟩

theorem ofLeaf_inj {v w : Value} (hv : v.isTable = false) (hw : w.isTable = false)
    (h : Tree.ofLeaf v = .ofLeaf w) : v = w := by
  cases v <;> cases w <;> cases h <;> first | rfl | cases hv

/-- **A tree in a heap has no key twice in a table.** -/
theorem distinct_of_unfold {h : Heap} : ∀ {n : Nat} {v : Value} {t : Tree}, h.unfold n v = some t → t.Distinct
  | n, v, .table ts, ht => by
    obtain ⟨id, m, rfl, rfl, hts⟩ := eq_table_of_unfold ht
    refine .table (hts.keys_eq ▸ (h.get id).nodup) fun e he => ?_
    obtain ⟨v, -, hv⟩ := hts.exists_mem_right he
    exact distinct_of_unfold hv
  | _, _, .nil, _ | _, _, .bool _, _ | _, _, .number _, _ | _, _, .string _, _ | _, _, .foreign _ _, _ => .leaf rfl

/-! ## Equality -/

/-- Two values that are not both tables, compared. -/
def leafEq : Value → Value → Bool
  | .number m, .number n => m.numericEq n
  | v, w => v == w

theorem leafEq_comm (v w : Value) : leafEq v w = leafEq w v := by
  cases v <;> cases w <;> first | exact Number.numericEq_comm _ _ | exact BEq.comm

/-- What is equal to a value is the same value, or the same number. -/
theorem eq_of_leafEq {v w : Value} (heq : leafEq v w = true) :
    v = w ∨ ∃ i j, v = .number i ∧ w = .number j ∧ i.numericEq j = true := by
  cases v with
  | number i =>
    cases w with
    | number j => exact .inr ⟨i, j, rfl, rfl, heq⟩
    | _ => exact .inl (eq_of_beq heq)
  | _ => exact .inl (eq_of_beq heq)

theorem leafEq_self {v : Value} (hnan : ∀ x, v = .number (.float x) → x.isNaN = false) : leafEq v v = true := by
  cases v with
  | number m =>
    cases m with
    | integer i => exact beq_self_eq_true i
    | float x => simp [leafEq, Number.numericEq, Binary64.numericEq, Number.toFloat, hnan x rfl]
  | _ => exact beq_self_eq_true _

theorem equalWithin_leaf {h : Heap} (n : Nat) {v w : Value} (hleaf : v.isTable = false ∨ w.isTable = false) :
    h.equalWithin n v w = leafEq v w := by
  cases v <;> cases w <;> first | (rcases hleaf with hleaf | hleaf <;> cases hleaf; done) | (rw [equalWithin, leafEq] <;> simp)

theorem equalWithin_zero {h : Heap} {a b : TableId} : h.equalWithin 0 (.table a) (.table b) = true ↔ a = b := by
  rw [equalWithin, Bool.or_eq_true, beq_iff_eq]
  exact or_iff_left Bool.false_ne_true

/-- What the first table holds is looked up in the second and compared the other way round; as keys are distinct and the
tables have as many, none of the second is left. -/
theorem equalWithin_swapped {h : Heap} {m : Nat} {a b : TableId} :
    h.equalWithin (m + 1) (.table a) (.table b) = true ↔
      a = b ∨ (Entries.keys (h.get a).entries).Perm (Entries.keys (h.get b).entries) ∧
        ∀ k v w, (k, v) ∈ (h.get a).entries → (k, w) ∈ (h.get b).entries → h.equalWithin m w v = true := by
  rw [equalWithin, Bool.or_eq_true, beq_iff_eq]
  simp only [Bool.and_eq_true, beq_iff_eq, List.all_eq_true, Table.size]
  rw [← Entries.length_keys, ← Entries.length_keys (h.get b).entries]
  refine or_congr_right ⟨fun ⟨hsize, hall⟩ => ?_, fun ⟨hperm, hvalue⟩ => ⟨hperm.length_eq, fun e he => ?_⟩⟩
  · have hfound : ∀ e ∈ (h.get a).entries, ∃ w, (e.1, w) ∈ (h.get b).entries ∧ h.equalWithin m w e.2 = true := fun e he => by
      have he := hall e he
      split at he
      · rename_i w hw
        exact ⟨w, Entries.mem_of_get?_eq_some hw, he⟩
      · cases he
    have hsub : Entries.keys (h.get a).entries ⊆ Entries.keys (h.get b).entries := fun k hk => by
      obtain ⟨e, he, rfl⟩ := List.mem_map.1 hk
      obtain ⟨w, hw, -⟩ := hfound e he
      exact List.mem_map.2 ⟨(e.1, w), hw, rfl⟩
    refine ⟨((h.get a).nodup.subperm hsub).perm_of_length_le (Nat.le_of_eq hsize.symm), fun k v w hv hw => ?_⟩
    obtain ⟨w', hw', heq⟩ := hfound (k, v) hv
    rwa [Entries.eq_of_mem_of_mem (h.get b).nodup hw hw']
  · obtain ⟨w, hw⟩ := Entries.exists_mem_of_mem_keys (hperm.mem_iff.1 (List.mem_map_of_mem he))
    rw [show (h.get b).get? e.1 = some w from Entries.get?_eq_some_of_mem (h.get b).nodup hw]
    exact hvalue e.1 e.2 w he hw

theorem exists_eq_table {v : Value} (hv : v.isTable ≠ false) : ∃ a, v = .table a := by
  cases v <;> first | exact ⟨_, rfl⟩ | exact absurd rfl hv

/-- **Equality does not depend on the side.** -/
theorem equalWithin_comm {h : Heap} (n : Nat) (v w : Value) : h.equalWithin n v w = h.equalWithin n w v := by
  by_cases hleaf : v.isTable = false ∨ w.isTable = false
  · rw [equalWithin_leaf n hleaf, equalWithin_leaf n hleaf.symm, leafEq_comm]
  · obtain ⟨⟨a, rfl⟩, b, rfl⟩ := (not_or.1 hleaf).imp exists_eq_table exists_eq_table
    rw [Bool.eq_iff_iff]
    cases n with
    | zero => rw [equalWithin_zero, equalWithin_zero, eq_comm]
    | succ n =>
      rw [equalWithin_swapped, equalWithin_swapped, eq_comm, List.perm_comm]
      refine or_congr_right (and_congr_right fun _ => ⟨fun hall k v w hv hw => ?_, fun hall k v w hv hw => ?_⟩)
      · rw [equalWithin_comm n]
        exact hall k w v hw hv
      · rw [equalWithin_comm n]
        exact hall k w v hw hv

theorem equal_comm (h : Heap) (v w : Value) : h.equal v w = h.equal w v := equalWithin_comm _ v w

/-- **Tables are equal if they are one, or have the same keys and equal values at each.** -/
theorem equalWithin_succ {h : Heap} {n : Nat} {a b : TableId} :
    h.equalWithin (n + 1) (.table a) (.table b) = true ↔
      a = b ∨ (Entries.keys (h.get a).entries).Perm (Entries.keys (h.get b).entries) ∧
        ∀ k v w, (k, v) ∈ (h.get a).entries → (k, w) ∈ (h.get b).entries → h.equalWithin n v w = true := by
  rw [equalWithin_swapped]
  simp only [equalWithin_comm n]

/-- **Values are equal if their trees are the same.** -/
theorem equalWithin_of_same {h : Heap} {n : Nat} {v w : Value} {t u : Tree} (hv : h.unfold n v = some t)
    (hw : h.unfold n w = some u) (hsame : t.Same u) (hnum : t.IsNumeric) : h.equalWithin n v w = true := by
  induction hsame generalizing n v w with
  | leaf hleaf =>
    have hnan := hnum.of_leaf hleaf
    obtain ⟨hv', rfl⟩ := eq_leaf_of_unfold hv hleaf
    obtain ⟨hw', hvw⟩ := eq_leaf_of_unfold hw hleaf
    obtain rfl := ofLeaf_inj hv' hw' hvw
    rw [equalWithin_leaf n (.inl hv')]
    exact leafEq_self fun x hx => hnan x (by rw [hx]; rfl)
  | @number i j hij =>
    obtain ⟨-, hvn⟩ := eq_leaf_of_unfold hv rfl
    obtain ⟨-, hwn⟩ := eq_leaf_of_unfold hw rfl
    cases v <;> cases hvn
    cases w <;> cases hwn
    rw [equalWithin_leaf n (.inl rfl)]
    refine hij.resolve_right fun hnan => ?_
    rw [i.isNaN_toFloat fun x hx => hnum.of_leaf rfl x (by rw [hx])] at hnan
    exact Bool.false_ne_true hnan.1
  | table hkeys _ ih =>
    obtain ⟨a, n, rfl, rfl, hes⟩ := eq_table_of_unfold hv
    obtain ⟨b, _, rfl, ⟨⟩, hfs⟩ := eq_table_of_unfold hw
    refine equalWithin_succ.2 (.inr ⟨?_, fun k v w hkv hkw => ?_⟩)
    · refine (List.perm_ext_iff_of_nodup (h.get a).nodup (h.get b).nodup).2 fun k => ?_
      rw [hes.keys_eq, hfs.keys_eq]
      exact hkeys k
    · obtain ⟨t, ht, htv⟩ := hes.exists_mem hkv
      obtain ⟨u, hu, huw⟩ := hfs.exists_mem hkw
      exact ih k t u ht hu htv huw (hnum.of_table _ ht)

theorem same_of_leafEq {h : Heap} {n : Nat} {v w : Value} {t u : Tree} (ht : h.unfold n v = some t)
    (hu : h.unfold n w = some u) (heq : leafEq v w = true) : t.Same u := by
  rcases eq_of_leafEq heq with rfl | ⟨i, j, rfl, rfl, hij⟩
  · cases ht.symm.trans hu
    exact .refl (distinct_of_unfold ht)
  · rw [unfold] at ht hu
    cases ht
    cases hu
    exact .number (.inl hij)

/-- **Values that are equal have trees that are the same.** -/
theorem same_of_equalWithin {h : Heap} {m n : Nat} {v w : Value} {t u : Tree} (ht : h.unfold m v = some t)
    (hu : h.unfold m w = some u) (heq : h.equalWithin n v w = true) : t.Same u := by
  by_cases hleaf : v.isTable = false ∨ w.isTable = false
  · rw [equalWithin_leaf n hleaf] at heq
    exact same_of_leafEq ht hu heq
  · obtain ⟨⟨a, rfl⟩, b, rfl⟩ := (not_or.1 hleaf).imp exists_eq_table exists_eq_table
    by_cases hab : a = b
    · subst hab
      cases ht.symm.trans hu
      exact .refl (distinct_of_unfold ht)
    · cases n with
      | zero => exact absurd (equalWithin_zero.1 heq) hab
      | succ n =>
        cases m with
        | zero => cases ht
        | succ m =>
          obtain ⟨es, rfl, hes⟩ := unfold_table.1 ht
          obtain ⟨fs, rfl, hfs⟩ := unfold_table.1 hu
          obtain ⟨hperm, hvalues⟩ := (equalWithin_succ.1 heq).resolve_left hab
          rw [hes.keys_eq, hfs.keys_eq] at hperm
          refine .table (fun k => hperm.mem_iff) fun k t u hkt hku => ?_
          obtain ⟨v, hv, htv⟩ := hes.exists_mem_right hkt
          obtain ⟨w, hw, huw⟩ := hfs.exists_mem_right hku
          exact same_of_equalWithin htv huw (hvalues k v w hv hw)

/-- **Values whose trees are the same.** -/
def Same (h : Heap) (v w : Value) : Prop := ∃ t u, h.tree? v = some t ∧ h.tree? w = some u ∧ t.Same u

/-- **Without a double that is no number, to be the same is to be equal.** -/
theorem equal_iff_same {h : Heap} {v w : Value} {t u : Tree} (hv : h.tree? v = some t) (hw : h.tree? w = some u)
    (hnum : t.IsNumeric) : h.equal v w = true ↔ h.Same v w := by
  refine ⟨fun heq => ⟨t, u, hv, hw, same_of_equalWithin hv hw heq⟩, fun ⟨t', u', hv', hw', hsame⟩ => ?_⟩
  cases hv.symm.trans hv'
  cases hw.symm.trans hw'
  exact equalWithin_of_same hv hw hsame hnum

end Heap
end Interchange
