import Interchange.Proofs.Same
import Interchange.Proofs.Shape
/-!
# Equality — tables as the data they hold

Without cycles, comparing takes as many levels as the tables nest and never more (`Heap.equalWithin_eq_of_le`), so equality
of tables is a recursion on what they hold: they are one, or have the same keys and equal values at each
(`Heap.equal_table_iff`).  It does not depend on the side.  Without a double that is no number it is the equality of data:
which tables hold it, which of them are shared and in which order their entries were inserted makes no difference
(`Heap.equal_structural`).
-/
namespace Interchange

namespace Tree

/-- **A tree with entries in another order**, at any level. -/
inductive Reordered : Tree → Tree → Prop where
  | leaf {t : Tree} (h : t.isTable = false) : Reordered t t
  | table {es fs : List (Key × Tree)} (hkeys : (Entries.keys es).Perm (Entries.keys fs))
    (hvalues : ∀ k t u, (k, t) ∈ es → (k, u) ∈ fs → Reordered t u) : Reordered (.table es) (.table fs)

theorem Reordered.same {t u : Tree} (h : t.Reordered u) : t.Same u := by
  induction h with
  | leaf h => exact .leaf h
  | table hkeys _ ih => exact .table (fun _ => hkeys.mem_iff) ih

theorem Reordered.symm {t u : Tree} (h : t.Reordered u) : u.Reordered t := by
  induction h with
  | leaf h => exact .leaf h
  | table hkeys _ ih => exact .table hkeys.symm fun k t u ht hu => ih k u t hu ht

theorem Reordered.refl {t : Tree} (h : t.Distinct) : t.Reordered t := by
  induction h with
  | leaf h => exact .leaf h
  | table hkeys _ ih =>
    refine .table (.refl _) fun k t u ht hu => ?_
    obtain rfl := Entries.eq_of_mem_of_mem hkeys ht hu
    exact ih _ ht

/-- **A tree is the same as another whatever its order.** -/
theorem Reordered.same_of_same {t t' u : Tree} (h : t.Reordered t') : t.Same u → t'.Same u := by
  induction h generalizing u with
  | leaf h => exact id
  | table hkeys _ ih =>
    intro hsame
    cases hsame with
    | leaf h => cases h
    | table hkeys' hvalues' =>
      refine .table (fun k => hkeys.mem_iff.symm.trans (hkeys' k)) fun k t' u ht' hu => ?_
      obtain ⟨t, ht⟩ := Entries.exists_mem_of_mem_keys (hkeys.mem_iff.2 (Entries.mem_keys_of_mem ht'))
      exact ih k t t' ht ht' (hvalues' k t u ht hu)

theorem Reordered.same_iff {t t' u u' : Tree} (ht : t.Reordered t') (hu : u.Reordered u') : t'.Same u' ↔ t.Same u :=
  ⟨fun h => (hu.symm.same_of_same (ht.symm.same_of_same h).symm).symm,
    fun h => (hu.same_of_same (ht.same_of_same h).symm).symm⟩

theorem Reordered.isNumeric {t u : Tree} (h : t.Reordered u) : t.IsNumeric → u.IsNumeric := by
  induction h with
  | leaf => exact id
  | table hkeys _ ih =>
    refine fun ht => .table fun f hf => ?_
    obtain ⟨t, hkt⟩ := Entries.exists_mem_of_mem_keys (hkeys.mem_iff.2 (Entries.mem_keys_of_mem hf))
    exact ih f.1 t f.2 hkt hf (ht.of_table _ hkt)

end Tree

namespace Heap

variable {h : Heap} {a b : TableId}

/-! ## Comparing without a bound -/

/-- **Comparing through more levels than tables nest changes nothing.** -/
theorem equalWithin_eq_of_le {n m : Nat} {v w : Value} {t u : Tree} (hv : h.unfold n v = some t)
    (hw : h.unfold n w = some u) (hnm : n ≤ m) : h.equalWithin m v w = h.equalWithin n v w := by
  by_cases hleaf : v.isTable = false ∨ w.isTable = false
  · rw [equalWithin_leaf m hleaf, equalWithin_leaf n hleaf]
  · obtain ⟨⟨a, rfl⟩, b, rfl⟩ := (not_or.1 hleaf).imp exists_eq_table exists_eq_table
    obtain ⟨m, rfl⟩ := Nat.exists_eq_add_of_le hnm
    cases n with
    | zero => cases hv
    | succ n =>
      obtain ⟨es, -, hes⟩ := unfold_table.1 hv
      obtain ⟨fs, -, hfs⟩ := unfold_table.1 hw
      rw [Nat.succ_add, Bool.eq_iff_iff, equalWithin_succ, equalWithin_succ]
      refine or_congr_right (and_congr_right fun _ => forall₃_congr fun k v w => forall₂_congr fun hkv hkw => ?_)
      obtain ⟨t, -, ht⟩ := hes.exists_mem hkv
      obtain ⟨u, -, hu⟩ := hfs.exists_mem hkw
      rw [equalWithin_eq_of_le ht hu (Nat.le_add_right n m)]

theorem perm_keys_iff : (Entries.keys (h.get a).entries).Perm (Entries.keys (h.get b).entries) ↔
    ∀ k, (h.get a).contains k = (h.get b).contains k := by
  rw [List.perm_ext_iff_of_nodup (h.get a).nodup (h.get b).nodup]
  exact forall_congr' fun k => by rw [Bool.eq_iff_iff, Table.contains_iff, Table.contains_iff]

/-- **Tables are equal if they are one, or have the same keys and equal values at each.** -/
theorem equal_table_iff (ha : ¬ h.HasCycle a) (hb : ¬ h.HasCycle b) : h.equal (.table a) (.table b) = true ↔
    a = b ∨ (∀ k, (h.get a).contains k = (h.get b).contains k) ∧
      ∀ k, (h.get a).contains k = true → h.equal ((h.get a).get k) ((h.get b).get k) = true := by
  obtain ⟨t, ht⟩ := exists_tree?_of_not_hasCycle ha
  obtain ⟨u, hu⟩ := exists_tree?_of_not_hasCycle hb
  obtain ⟨es, -, hes⟩ := unfold_table.1 ht
  obtain ⟨fs, -, hfs⟩ := unfold_table.1 hu
  have hvalue : ∀ k v w, (k, v) ∈ (h.get a).entries → (k, w) ∈ (h.get b).entries →
      h.equal ((h.get a).get k) ((h.get b).get k) = h.equalWithin h.size v w := fun k v w hv hw => by
    obtain ⟨t, -, ht⟩ := hes.exists_mem hv
    obtain ⟨u, -, hu⟩ := hfs.exists_mem hw
    rw [Table.get_of_mem hv, Table.get_of_mem hw]
    exact equalWithin_eq_of_le ht hu (Nat.le_succ h.size)
  rw [equal, equalWithin_succ, perm_keys_iff]
  refine or_congr_right (and_congr_right fun hkeys => ⟨fun hall k hk => ?_, fun hall k v w hv hw => ?_⟩)
  · obtain ⟨v, hv⟩ := Entries.exists_mem_of_mem_keys ((Table.contains_iff _ k).1 hk)
    obtain ⟨w, hw⟩ := Entries.exists_mem_of_mem_keys ((Table.contains_iff _ k).1 (hkeys k ▸ hk))
    rw [hvalue k v w hv hw]
    exact hall k v w hv hw
  · rw [← hvalue k v w hv hw]
    exact hall k ((Table.contains_iff _ k).2 (Entries.mem_keys_of_mem hv))

/-! ## Data -/

/-- A table with a double that is no number as a value is reached. -/
def HasNaN (h : Heap) (root : TableId) : Prop :=
  ∃ a k x, h.Reaches root a ∧ (k, Value.float x) ∈ (h.get a).entries ∧ x.isNaN = true

/-- **A value that is the data of another**: their trees differ at most in the order of entries, and their tables may be
any. -/
def Copies (h : Heap) (v w : Value) : Prop :=
  ∃ t u, h.tree? v = some t ∧ h.tree? w = some u ∧ t.Reordered u

variable {v w v' w' : Value}

theorem Copies.refl {t : Tree} (ht : h.tree? v = some t) : h.Copies v v :=
  ⟨t, t, ht, ht, .refl (distinct_of_unfold ht)⟩

theorem Copies.symm : h.Copies v w → h.Copies w v := fun ⟨t, u, ht, hu, htu⟩ => ⟨u, t, hu, ht, htu.symm⟩

/-- **A copy is made by copying the values** of the entries, in any order. -/
theorem Copies.table {es : List (Key × Value)} (hperm : (h.get a).entries.Perm es)
    (hcopies : Entries.Matches h.Copies es (h.get b).entries) : h.Copies (.table a) (.table b) := by
  obtain ⟨ts, hts⟩ : ∃ ts, Entries.Matches (fun v t => h.tree? v = some t) (h.get a).entries ts :=
    Entries.Matches.exists_of_forall fun e he => by
      obtain ⟨w, -, t, _, ht, -⟩ := hcopies.exists_mem (hperm.mem_iff.1 he)
      exact ⟨t, ht⟩
  obtain ⟨us, hus⟩ : ∃ us, Entries.Matches (fun w u => h.tree? w = some u) (h.get b).entries us :=
    Entries.Matches.exists_of_forall fun f hf => by
      obtain ⟨v, -, _, u, -, hu, -⟩ := hcopies.exists_mem_right hf
      exact ⟨u, hu⟩
  refine ⟨.table ts, .table us, tree?_of_unfold (unfold_table.2 ⟨ts, rfl, hts⟩),
    tree?_of_unfold (unfold_table.2 ⟨us, rfl, hus⟩), .table ?_ fun k t u ht hu => ?_⟩
  · rw [← hts.keys_eq, ← hus.keys_eq, ← hcopies.keys_eq]
    exact hperm.map _
  · obtain ⟨v, hv, hvt⟩ := hts.exists_mem_right ht
    obtain ⟨w, hw, hwu⟩ := hus.exists_mem_right hu
    obtain ⟨w', hw', t', u', ht', hu', htu⟩ := hcopies.exists_mem (hperm.mem_iff.1 hv)
    cases Entries.eq_of_mem_of_mem (h.get b).nodup hw hw'
    cases hvt.symm.trans ht'
    cases hwu.symm.trans hu'
    exact htu

theorem isNumeric_of_unfold : ∀ {n : Nat} {a : TableId} {t : Tree}, h.unfold n (.table a) = some t → ¬ h.HasNaN a →
    t.IsNumeric
  | n + 1, a, t, ht, hnan => by
    obtain ⟨es, rfl, hes⟩ := unfold_table.1 ht
    refine .table ?_
    rintro ⟨k, t⟩ hkt
    obtain ⟨v, hv, ht⟩ := hes.exists_mem_right hkt
    cases v with
    | table b =>
      have hchild : h.Child a b := ⟨k, hv⟩
      refine isNumeric_of_unfold ht ?_
      rintro ⟨c, k, x, hr, hm, hx⟩
      exact hnan ⟨c, k, x, hr.head hchild, hm, hx⟩
    | number i =>
      rw [unfold] at ht
      cases ht
      refine .leaf rfl fun x hx => Bool.eq_false_iff.2 fun hx' => hnan ⟨a, k, x, .refl, ?_, hx'⟩
      cases hx
      exact hv
    | _ =>
      rw [unfold] at ht
      cases ht
      exact .leaf rfl fun x hx => by cases hx

/-- **Without a double that is no number, tables are equal exactly if they have the same keys and equal values at each.** -/
theorem equal_table_iff_of_not_hasNaN (ha : ¬ h.HasCycle a) (hb : ¬ h.HasCycle b) (hnan : ¬ h.HasNaN a) :
    h.equal (.table a) (.table b) = true ↔ (∀ k, (h.get a).contains k = (h.get b).contains k) ∧
      ∀ k, (h.get a).contains k = true → h.equal ((h.get a).get k) ((h.get b).get k) = true := by
  rw [equal_table_iff ha hb]
  refine or_iff_right_of_imp ?_
  rintro rfl
  refine ⟨fun _ => rfl, fun k hk => ?_⟩
  obtain ⟨t, ht⟩ := exists_tree?_of_not_hasCycle ha
  have hnum := isNumeric_of_unfold ht hnan
  obtain ⟨es, rfl, hes⟩ := unfold_table.1 ht
  obtain ⟨v, hv⟩ := Entries.exists_mem_of_mem_keys ((Table.contains_iff _ k).1 hk)
  obtain ⟨u, hu, huv⟩ := hes.exists_mem hv
  have hu' := tree?_of_unfold huv
  rw [Table.get_of_mem hv]
  exact equalWithin_of_same hu' hu' (.refl (distinct_of_unfold huv)) (hnum.of_table _ hu)

theorem same_iff_of_tree? {v w : Value} {t u : Tree} (hv : h.tree? v = some t) (hw : h.tree? w = some u) :
    h.Same v w ↔ t.Same u := by
  refine ⟨fun ⟨t', u', hv', hw', hsame⟩ => ?_, fun hsame => ⟨t, u, hv, hw, hsame⟩⟩
  cases hv.symm.trans hv'
  cases hw.symm.trans hw'
  exact hsame

/-- **Values that are the same data compare the same.** -/
theorem Copies.equal_iff {t : Tree} (hv : h.Copies v v') (hw : h.Copies w w') (ht : h.tree? v = some t) (hnum : t.IsNumeric) :
    h.equal v' w' = true ↔ h.equal v w = true := by
  obtain ⟨_, t', hvt, hvt', htt'⟩ := hv
  cases ht.symm.trans hvt
  obtain ⟨u, u', hwu, hwu', huu'⟩ := hw
  rw [equal_iff_same ht hwu hnum, equal_iff_same hvt' hwu' (htt'.isNumeric hnum), same_iff_of_tree? ht hwu,
    same_iff_of_tree? hvt' hwu']
  exact htt'.same_iff huu'

/-- **Equality of tables is equality of data.**  Without cycles it does not depend on the side.  Without doubles that are no
number, tables are equal exactly when they have the same keys and equal values at each, all the way down; tables that hold
the same data compare the same with any other, and are equal, in whatever order they got their entries, whichever tables
they hold and however these are shared. -/
theorem equal_structural (ha : ¬ h.HasCycle a) (hb : ¬ h.HasCycle b) :
    h.equal (.table a) (.table b) = h.equal (.table b) (.table a) ∧
    (¬ h.HasNaN a → ¬ h.HasNaN b →
      (h.equal (.table a) (.table b) = true ↔ (∀ k, (h.get a).contains k = (h.get b).contains k) ∧
        ∀ k, (h.get a).contains k = true → h.equal ((h.get a).get k) ((h.get b).get k) = true) ∧
      (h.equal (.table a) (.table b) = true ↔ h.Same (.table a) (.table b)) ∧
      ∀ a' b', h.Copies (.table a) (.table a') → h.Copies (.table b) (.table b') →
        h.equal (.table a) (.table a') = true ∧ h.equal (.table a') (.table b') = h.equal (.table a) (.table b)) := by
  obtain ⟨t, ht⟩ := exists_tree?_of_not_hasCycle ha
  obtain ⟨u, hu⟩ := exists_tree?_of_not_hasCycle hb
  refine ⟨h.equal_comm _ _, fun hnan _ => ?_⟩
  have hnum := isNumeric_of_unfold ht hnan
  refine ⟨equal_table_iff_of_not_hasNaN ha hb hnan, equal_iff_same ht hu hnum, fun a' b' haa' hbb' => ⟨?_, ?_⟩⟩
  · obtain ⟨t', u', ht', hu', htu'⟩ := haa'
    cases ht.symm.trans ht'
    exact equalWithin_of_same ht hu' htu'.same hnum
  · exact Bool.eq_iff_iff.2 (haa'.equal_iff hbb' ht hnum)

/-- A point under two names, and the same from two tables and in the other order. -/
def points : Heap := ⟨#[.ofPairs [(.string "x", .integer 1), (.string "y", .float (.zero false))],
  .ofPairs [(.string "from", .table ⟨0⟩), (.string "to", .table ⟨0⟩)],
  .ofPairs [(.string "y", .float (.zero false)), (.string "x", .integer 1)],
  .ofPairs [(.string "to", .table ⟨2⟩), (.string "from", .table ⟨0⟩)]]⟩

theorem not_hasNaN_points (a : TableId) : ¬ points.HasNaN a := by
  rintro ⟨b, k, x, -, hm, hx⟩
  have hvalues : ∀ b, ∀ e ∈ (points.get b).entries, e.2 ∈ [.integer 1, .float (.zero false), .table ⟨0⟩, .table ⟨2⟩]
    | ⟨0⟩ | ⟨1⟩ | ⟨2⟩ | ⟨3⟩ => by decide
    | ⟨_ + 4⟩ => nofun
  have hx0 : x = .zero false := by simpa [Value.integer, Value.float] using hvalues b _ hm
  rw [hx0] at hx
  exact absurd hx (by decide)

theorem copies_points : points.Copies (.table ⟨1⟩) (.table ⟨3⟩) := by
  have hpoint : points.Copies (.table ⟨0⟩) (.table ⟨2⟩) :=
    .table (.swap _ _ _) (.cons ⟨rfl, .refl rfl⟩ (.cons ⟨rfl, .refl rfl⟩ .nil))
  exact .table (.swap _ _ _) (.cons ⟨rfl, hpoint⟩ (.cons ⟨rfl, .refl rfl⟩ .nil))

/-- The tables are one another's copies: one holds a table twice where the other holds two in another order. -/
theorem equal_structural_points : ¬ points.HasCycle ⟨1⟩ ∧ ¬ points.HasCycle ⟨3⟩ ∧ ¬ points.HasNaN ⟨1⟩ ∧
    ¬ points.HasNaN ⟨3⟩ ∧ points.Copies (.table ⟨1⟩) (.table ⟨3⟩) ∧ points.equal (.table ⟨1⟩) (.table ⟨3⟩) = true ∧
    points.equal (.table ⟨3⟩) (.table ⟨1⟩) = true := by
  have hone : ¬ points.HasCycle ⟨1⟩ := tree?_isSome_iff.1 (by decide)
  have hthree : ¬ points.HasCycle ⟨3⟩ := tree?_isSome_iff.1 (by decide)
  obtain ⟨hcomm, hdata⟩ := equal_structural hone hthree
  obtain ⟨-, -, hcopies⟩ := hdata (not_hasNaN_points _) (not_hasNaN_points _)
  obtain ⟨heq, -⟩ := hcopies ⟨3⟩ ⟨1⟩ copies_points copies_points.symm
  exact ⟨hone, hthree, not_hasNaN_points _, not_hasNaN_points _, copies_points, heq, hcomm.symm.trans heq⟩

end Heap
end Interchange
