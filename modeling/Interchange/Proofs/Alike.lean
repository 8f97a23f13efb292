import Interchange.Proofs.Carried
/-!
# Alike — trees with the same data

Tables are the same data if they have the same keys and the same data at each, in whatever order the keys were inserted.
A double that is no number stands for any other such double.  Values whose trees are alike are equal in a heap, unless one
of those doubles is among them (`Heap.equal_of_alike`), and equal values have the same strings and the same keys at the end
of every path (`Heap.meets_of_equal`).  A document that was made of a tree has no name twice, so its members are the same
data in any order.
-/
namespace Interchange

namespace Tree

/-- **Trees with the same data.** -/
inductive Alike : Tree → Tree → Prop where
  | leaf {t : Tree} (h : t.isTable = false) : Alike t t
  | nan {x y : Binary64} (hx : x.isNaN) (hy : y.isNaN) : Alike (.number (.float x)) (.number (.float y))
  | table {es fs : List (Key × Tree)} (hkeys : ∀ k, k ∈ Entries.keys es ↔ k ∈ Entries.keys fs)
    (hvalues : ∀ k t u, (k, t) ∈ es → (k, u) ∈ fs → Alike t u) : Alike (.table es) (.table fs)

theorem Alike.symm {t u : Tree} (h : t.Alike u) : u.Alike t := by
  induction h with
  | leaf h => exact .leaf h
  | nan hx hy => exact .nan hy hx
  | table hkeys _ ih => exact .table (fun k => (hkeys k).symm) fun k t u ht hu => ih k u t hu ht

/-- **Entries in another order, with values that are alike.** -/
theorem Alike.of_perm {es gs fs : List (Key × Tree)} (hnd : (Entries.keys es).Nodup) (hperm : es.Perm gs)
    (h : Entries.Matches Alike gs fs) : Alike (.table es) (.table fs) := by
  have hkeys : (Entries.keys es).Perm (Entries.keys fs) := h.keys_eq ▸ hperm.map _
  refine .table (fun k => hkeys.mem_iff) fun k t u ht hu => ?_
  obtain ⟨u', hu', halike⟩ := h.exists_mem (hperm.mem_iff.1 ht)
  rwa [Entries.eq_of_mem_of_mem (hkeys.nodup_iff.1 hnd) hu hu']

theorem Alike.refl {t : Tree} (h : t.Distinct) : t.Alike t := by
  induction h with
  | leaf h => exact .leaf h
  | table hkeys _ ih => exact .of_perm hkeys (.refl _) (List.forall₂_same.2 fun e he => ⟨rfl, ih e he⟩)

end Tree

/-! ## Documents -/

/-- **A document none of whose dictionaries has a name twice.** -/
inductive Document.Distinct {α : Type} : Document α → Prop where
  | scalar (a : α) : Distinct (.scalar a)
  | list {items : List (Document α)} (h : ∀ d ∈ items, Distinct d) : Distinct (.list items)
  | dict {members : List (String × Document α)} (hnames : (Entries.keys members).Nodup)
    (h : ∀ m ∈ members, Distinct m.2) : Distinct (.dict members)

namespace Dialect

variable {α : Type} (d : Dialect α)

theorem distinct_dict {es : List (Key × Tree)} {ms : List (String × Document α)}
    (hes : ∀ e ∈ es, ∀ doc, d.ofTree e.2 = .ok doc → doc.Distinct) (h : d.encodeEntries d.ofTree [] es = .ok ms) :
    (Document.dict ms).Distinct :=
  have hnil : (Entries.keys ([] : Entries String (Document α))).Nodup := .nil
  .dict (nodup_encodeEntries d hnil h) (forall_encodeEntries hes (fun _ hm => absurd hm List.not_mem_nil) h)

/-- **A document that was made of a tree has no name twice.** -/
theorem distinct_ofTree (t : Tree) : ∀ {doc : Document α}, d.ofTree t = .ok doc → doc.Distinct := by
  induction t with
  | table es ih =>
    intro doc h
    rw [ofTree_table] at h
    rcases encodeForm_eq_ok d h with ⟨ds, -, hds, rfl⟩ | ⟨ms, -, hms, rfl⟩
    · refine .list (forall_encodeItems (fun t ht doc hdoc => ?_) hds)
      obtain ⟨k, hm⟩ := Entries.mem_of_mem_sequence ht
      exact ih _ hm hdoc
    · exact d.distinct_dict (fun e he doc hdoc => ih e he hdoc) hms
  | _ =>
    intro doc h
    obtain ⟨a, rfl⟩ := d.exists_scalar_of_ofTree rfl h
    exact .scalar a

theorem distinct_membersOfTree {t : Tree} {ms : List (String × Document α)} (h : d.membersOfTree t = .ok ms) :
    (Document.dict ms).Distinct := by
  cases t with
  | table es => exact d.distinct_dict (fun e _ _ hdoc => d.distinct_ofTree e.2 hdoc) h
  | _ =>
    cases h
    exact .dict .nil fun _ hm => absurd hm List.not_mem_nil

end Dialect

/-! ## Equality in a heap -/

/-- **A tree of numbers carries on in one that is alike.** -/
theorem Tree.Alike.carried {t u : Tree} (h : t.Alike u) : t.IsNumeric → t.Carried u := by
  induction h with
  | leaf h => exact fun _ => .leaf h
  | nan hx => intro ht; cases ht with | leaf _ hnan => exact absurd hx (by simp [hnan _ rfl])
  | table hkeys _ ih => exact fun ht => .table hkeys fun k t u hkt hku => ih k t u hkt hku (ht.of_table _ hkt)

theorem Tree.Alike.same {t u : Tree} (h : t.Alike u) : t.Same u := by
  induction h with
  | leaf h => exact .leaf h
  | nan hx hy => exact .number (.inr ⟨hx, hy⟩)
  | table hkeys _ ih => exact .table hkeys ih

/-- **What is alike to a tree that carries another on is the same as that.** -/
theorem Tree.Carried.same_of_alike {t u v : Tree} (h : t.Carried u) : u.Alike v → t.Same v := by
  induction h generalizing v with
  | leaf => exact Alike.same
  | number n =>
    intro h
    cases h with
    | leaf => exact .number n.same_toFloat
    | nan hx hy => exact .number (.inr ⟨hx, hy⟩)
  | table hkeys _ ih =>
    intro h
    cases h with
    | leaf h => cases h
    | table hkeys' hvalues' =>
      refine .table (fun k => (hkeys k).trans (hkeys' k)) fun k t v ht hv => ?_
      obtain ⟨u, hu⟩ := Entries.exists_mem_of_mem_keys ((hkeys k).1 (Entries.mem_keys_of_mem ht))
      exact ih k t u ht hu (hvalues' k u v hu hv)

namespace Heap

/-- **Values with trees that are alike are equal.** -/
theorem equal_of_alike {h : Heap} {v w : Value} {t u : Tree} (hv : h.tree? v = some t) (hw : h.tree? w = some u)
    (halike : t.Alike u) (hnum : t.IsNumeric) : h.equal v w = true :=
  (equal_iff_same hv hw hnum).2 ⟨t, u, hv, hw, halike.same⟩

theorem alike_of_unfold {h : Heap} {n : Nat} {v : Value} {t : Tree} (ht : h.unfold n v = some t) : t.Alike t :=
  .refl (distinct_of_unfold ht)

end Heap

/-! ## What equal values share -/

namespace Tree

/-- The tree at the end of a path. -/
def at? : Tree → List Key → Option Tree
  | t, [] => some t
  | .table es, k :: ks => (Entries.get? k es).bind fun t => t.at? ks
  | _, _ :: _ => none

/-- Whether trees are one string, or tables with the same keys, if they are strings or tables at all. -/
def meets : Tree → Tree → Bool
  | .string s, .string s' => s == s'
  | .table es, .table fs => (Entries.keys es).isPerm (Entries.keys fs)
  | _, _ => true

theorem meets_self (t : Tree) : t.meets t = true := by
  cases t with
  | string s => exact beq_self_eq_true s
  | table es => exact List.isPerm_iff.2 (.refl _)
  | _ => rfl

theorem exists_of_at?_cons {t t' : Tree} {k : Key} {ks : List Key} (h : t.at? (k :: ks) = some t') :
    ∃ es u, t = .table es ∧ (k, u) ∈ es ∧ u.at? ks = some t' := by
  cases t with
  | table es =>
    rw [at?, Option.bind_eq_some_iff] at h
    obtain ⟨u, hu, h⟩ := h
    exact ⟨es, u, rfl, Entries.mem_of_get?_eq_some hu, h⟩
  | _ => cases h

theorem Same.meets {t u : Tree} (h : t.Same u) (ht : t.Distinct) (hu : u.Distinct) : t.meets u = true := by
  cases h with
  | leaf => exact t.meets_self
  | number => rfl
  | table hkeys => exact List.isPerm_iff.2 ((List.perm_ext_iff_of_nodup ht.of_table.1 hu.of_table.1).2 hkeys)

/-- **Trees that are the same meet at the end of every path.** -/
theorem Same.meets_at {path : List Key} {t u t' u' : Tree} (h : t.Same u) (ht : t.Distinct) (hu : u.Distinct)
    (htop : t.at? path = some t') (hutop : u.at? path = some u') : t'.meets u' = true := by
  induction path generalizing t u with
  | nil =>
    rw [at?] at htop hutop
    cases htop
    cases hutop
    exact h.meets ht hu
  | cons k ks ih =>
    obtain ⟨es, t₁, rfl, ht₁, htop⟩ := exists_of_at?_cons htop
    obtain ⟨fs, u₁, rfl, hu₁, hutop⟩ := exists_of_at?_cons hutop
    cases h with
    | leaf h => cases h
    | table _ hvalues =>
      exact ih (hvalues k t₁ u₁ ht₁ hu₁) (ht.of_table.2 _ ht₁) (hu.of_table.2 _ hu₁) htop hutop

end Tree

namespace Heap

theorem meets_of_equal {h : Heap} {v w : Value} {t u t' u' : Tree} (hv : h.tree? v = some t) (hw : h.tree? w = some u)
    (heq : h.equal v w = true) {path : List Key} (ht : t.at? path = some t') (hu : u.at? path = some u') :
    t'.meets u' = true :=
  (same_of_equalWithin hv hw heq).meets_at (distinct_of_unfold hv) (distinct_of_unfold hw) ht hu

end Heap
end Interchange
