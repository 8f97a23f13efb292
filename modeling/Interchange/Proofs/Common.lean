import Interchange.Proofs.Json.RoundTrip
import Interchange.Proofs.Settled
import Interchange.Proofs.Toml.RoundTrip
import Interchange.Proofs.Yaml.RoundTrip
/-!
# Common — the data that JSON, YAML and TOML all hold

Tables that are sequences or have names only, truth values, finite numbers, and strings that spell themselves: each of the
three formats has a document for such a tree (`Tree.IsCommon.exists_ofTree_ok`), and the normal form in each of them carries
the tree on (`Tree.IsCommon.carried_normal`).  What carries on a tree of this kind is of this kind itself
(`Tree.IsCommon.of_carried`).
-/
namespace Interchange

/-! ## Names -/

namespace Yaml

/-- A key that has a name, which does not spell null. -/
def IsNaming (k : Key) : Prop := ∃ s, k.name? = some s ∧ spellsNull s.toList = false

theorem spellsNull_cons {c : Char} (hc : c ∉ ['n', 'N', '~']) (cs : List Char) : spellsNull (c :: cs) = false := by
  have hwords : ∀ w ∈ ["null", "Null", "NULL", "~"], w.toList.head? ∈ ['n', 'N', '~'].map some := by decide
  refine Bool.eq_false_iff.2 fun hnull => ?_
  rw [spellsNull, List.isEmpty_cons, Bool.false_or, isNullWord] at hnull
  obtain ⟨w, hw, heq⟩ := List.any_eq_true.1 hnull
  have hhead := hwords w hw
  rw [beq_iff_eq.1 heq, List.head?_cons] at hhead
  obtain ⟨c', hc', heq⟩ := List.mem_map.1 hhead
  exact hc (Option.some.inj heq ▸ hc')

theorem spellsNull_integerText (i : Int64) : spellsNull (Number.integerText i).toList = false := by
  obtain ⟨c, cs, hcs, hc, -⟩ := exists_toDigits i.toInt.natAbs
  rw [Json.toList_integerText, hcs]
  split
  · exact spellsNull_cons (by decide) _
  · refine spellsNull_cons (fun hm => ?_) cs
    simp only [List.mem_cons, List.not_mem_nil, or_false] at hm
    rcases hm with rfl | rfl | rfl <;> exact absurd hc (by decide)

theorem isNaming_ofPlace (n : Nat) : IsNaming (.ofPlace n) :=
  ⟨Number.integerText (Int64.ofNat n), rfl, spellsNull_integerText _⟩

namespace IsNaming

variable {k : Key}

theorem name?_ne_none (hk : IsNaming k) : k.name? ≠ none := by
  obtain ⟨s, hs, -⟩ := hk
  rw [hs]
  exact nofun

theorem spellsNull_eq_false {s : String} (hk : IsNaming k) (hs : k.name? = some s) : spellsNull s.toList = false := by
  obtain ⟨s', hs', hnull⟩ := hk
  cases hs.symm.trans hs'
  exact hnull

theorem of_name {s : String} (hk : IsNaming k) (hs : k.name? = some s) : IsNaming (.string s) :=
  ⟨s, rfl, hk.spellsNull_eq_false hs⟩

end IsNaming

end Yaml

/-! ## Common data -/

namespace Tree

/-- Whether all keys are names, and none spells null. -/
def IsNamed (es : List (Key × Tree)) : Prop :=
  ∀ k ∈ Entries.keys es, ∃ s, k = .string s ∧ Yaml.spellsNull s.toList = false

/-- **A tree of the data that JSON, YAML and TOML have in common.** -/
inductive IsCommon : Tree → Prop where
  | bool (b : Bool) : IsCommon (.bool b)
  | number {n : Number} (hn : ∀ x, n = .float x → x.isFinite = true) : IsCommon (.number n)
  | string {s : String} (hs : Yaml.Scalar.ofText s.toList = .string s) : IsCommon (.string s)
  | table {es : List (Key × Tree)} (hkeys : (∃ items, Entries.form es = .sequence items) ∨ IsNamed es)
    (h : ∀ e ∈ es, IsCommon e.2) : IsCommon (.table es)

theorem IsCommon.of_table {es : List (Key × Tree)} (h : (Tree.table es).IsCommon) :
    ((∃ items, Entries.form es = .sequence items) ∨ IsNamed es) ∧ ∀ e ∈ es, e.2.IsCommon := by
  cases h with
  | table hkeys h => exact ⟨hkeys, h⟩

theorem IsCommon.isNil_eq_false {t : Tree} (h : t.IsCommon) : HasNil.isNil t = false := by cases h <;> rfl

theorem IsCommon.isNumeric {t : Tree} (h : t.IsCommon) : t.IsNumeric := by
  induction h with
  | number hn =>
    refine .leaf rfl fun x hx => ?_
    cases hx
    exact Binary64.isNaN_of_isFinite (hn x rfl)
  | table _ _ ih => exact .table ih
  | _ => exact .leaf rfl fun _ hx => by cases hx

/-- **Common data is over its leaves and over keys that have names**, the places of a sequence among them. -/
theorem IsCommon.over {t : Tree} (h : t.IsCommon) : t.Over IsCommon Yaml.IsNaming := by
  induction h with
  | bool b => exact .leaf rfl (.bool b)
  | number hn => exact .leaf rfl (.number hn)
  | string hs => exact .leaf rfl (.string hs)
  | @table es hkeys _ ih =>
    refine .table (fun k hk => ?_) ih
    rcases hkeys with hseq | hnamed
    · obtain ⟨n, -, -, rfl⟩ := Entries.mem_placeKeys.1 (Entries.form_eq_sequence_iff.1 hseq k hk)
      exact Yaml.isNaming_ofPlace n
    · obtain ⟨s, rfl, hnull⟩ := hnamed k hk
      exact ⟨s, rfl, hnull⟩

/-! ## Carrying on -/

/-- **What carries on common data is common data**: with the same keys and no nil, a table has the same shape. -/
theorem IsCommon.of_carried {t u : Tree} (h : t.IsCommon) (hcarried : t.Carried u) (ht : t.Distinct) (hu : u.Distinct) :
    u.IsCommon := by
  induction hcarried with
  | leaf => exact h
  | number n =>
    cases h with
    | number hn =>
      refine .number fun x hx => ?_
      cases hx
      exact n.isFinite_toFloat hn
  | @table es fs hkeys hvalues ih =>
    obtain ⟨hform, h⟩ := h.of_table
    obtain ⟨hes, ht⟩ := ht.of_table
    obtain ⟨hfs, hu⟩ := hu.of_table
    have hcommon : ∀ f ∈ fs, f.2.IsCommon := fun f hf => by
      obtain ⟨t, hkt⟩ := Entries.exists_mem_of_mem_keys ((hkeys f.1).2 (Entries.mem_keys_of_mem hf))
      exact ih f.1 t f.2 hkt hf (h _ hkt) (ht _ hkt) (hu _ hf)
    have hperm : (Entries.keys es).Perm (Entries.keys fs) := (List.perm_ext_iff_of_nodup hes hfs).2 hkeys
    have hlen : es.length = fs.length := by
      have hlen := hperm.length_eq
      rwa [Entries.length_keys, Entries.length_keys] at hlen
    refine .table (hform.imp (fun hseq => ?_) fun hnamed k hk => hnamed k ((hkeys k).2 hk)) hcommon
    -- without nil the shape is a matter of the keys alone
    rw [Entries.form_eq_sequence_iff_perm hes fun e he => (h e he).isNil_eq_false] at hseq
    rw [Entries.form_eq_sequence_iff_perm hfs fun f hf => (hcommon f hf).isNil_eq_false, ← hlen]
    exact ⟨hseq.1, hseq.2.trans hperm⟩

/-- **Entries under names are carried on as they are named**, if their values are: none is left out or set twice. -/
theorem IsCommon.carried_named {es : List (Key × Tree)} (h : (Tree.table es).IsCommon) (ht : (Tree.table es).Distinct)
    (hnamed : IsNamed es) (keepsNil : Bool) {g : Tree → Tree} (hg : ∀ e ∈ es, e.2.Carried (g e.2)) :
    (Tree.table es).Carried (.table (Entries.ofList (es.filterMap fun e => named keepsNil (e.1, e.2, g e.2)))) := by
  have hname : ∀ e ∈ es, named keepsNil (e.1, e.2, g e.2) = some (e.1, g e.2) := fun e he => by
    obtain ⟨s, hs, -⟩ := hnamed e.1 (Entries.mem_keys_of_mem he)
    rw [named, (h.of_table.2 e he).isNil_eq_false, hs]
    rfl
  have hkeys : (Entries.keys (es.map fun e => (e.1, g e.2))).Nodup := by
    rw [Entries.keys, List.map_map]
    exact ht.of_table.1
  rw [List.filterMap_congr hname, List.filterMap_eq_map', Entries.ofList_eq_self hkeys]
  exact .of_perm ht.of_table.1 (.refl _) (Entries.matches_map hg)

/-- **The normal form of common data carries it on**, if that of its leaves does. -/
theorem IsCommon.carried_normal {leaf : Tree → Tree}
    (hleaf : ∀ t : Tree, t.IsCommon → t.isTable = false → t.Carried (leaf t)) (keepsNil : Bool) {t : Tree}
    (h : t.IsCommon) (ht : t.Distinct) : t.Carried (t.normal leaf keepsNil) := by
  induction h with
  | bool b => exact hleaf _ (.bool b) rfl
  | number hn => exact hleaf _ (.number hn) rfl
  | string hs => exact hleaf _ (.string hs) rfl
  | @table es hkeys h ih =>
    have hcarried : ∀ e ∈ es, e.2.Carried (e.2.normal leaf keepsNil) := fun e he => ih e he (ht.of_table.2 e he)
    rw [normal_table]
    cases hF : Entries.form es with
    | sequence items =>
      have hitems : List.Forall₂ Carried items (items.map (normal leaf keepsNil)) := by
        refine List.forall₂_map_right_iff.2 (List.forall₂_same.2 fun t hmem => ?_)
        rw [(Entries.form_eq_sequence hF).1] at hmem
        obtain ⟨k, hk⟩ := Entries.mem_of_mem_sequence hmem
        exact hcarried _ hk
      exact .of_perm ht.of_table.1 (Entries.perm_numbered ht.of_table.1 hF) (Entries.matches_numbered hitems)
    | mapping es' =>
      obtain rfl := Entries.form_eq_mapping hF
      have hnamed := hkeys.resolve_left fun ⟨items, hseq⟩ => by rw [hF] at hseq; cases hseq
      exact IsCommon.carried_named (.table hkeys h) ht hnamed keepsNil hcarried

theorem IsCommon.carried_json {t : Tree} (h : t.IsCommon) (ht : t.Distinct) : t.Carried t.json := by
  refine h.carried_normal (fun t h hleaf => ?_) true ht
  cases h with
  | @number n hn =>
    cases n with
    | integer i => exact .leaf rfl
    | float x =>
      rw [Json.leaf, if_pos (hn x rfl)]
      exact .leaf rfl
  | table => cases hleaf
  | _ => exact .leaf rfl

theorem IsCommon.carried_yaml {t : Tree} (h : t.IsCommon) (ht : t.Distinct) : t.Carried t.yaml := by
  refine h.carried_normal (fun t h hleaf => ?_) false ht
  cases h with
  | number => exact .number _
  | string hs =>
    rw [Yaml.leaf, hs]
    exact .leaf rfl
  | table => cases hleaf
  | _ => exact .leaf rfl

theorem IsCommon.carried_toml {es : List (Key × Tree)} (h : (Tree.table es).IsCommon)
    (ht : (Tree.table es).Distinct) (hnamed : IsNamed es) : (Tree.table es).Carried (Tree.table es).toml := by
  have hleaf : ∀ t : Tree, t.IsCommon → t.isTable = false → t.Carried (Toml.leaf t) := fun t h hleaf => by
    cases h with
    | number => exact .number _
    | table => cases hleaf
    | _ => exact .leaf rfl
  exact h.carried_named ht hnamed false fun e he =>
    (h.of_table.2 e he).carried_normal hleaf false (ht.of_table.2 e he)

/-! ## Documents -/

section

variable {α : Type} (d : Dialect α)

theorem IsCommon.ofLeaf_ne {t : Tree} (h : t.IsCommon) (e : Error) : d.ofLeaf t ≠ .error e := by
  cases h <;> exact nofun

/-- **Common data has a document in every dialect.** -/
theorem IsCommon.exists_ofTree_ok {t : Tree} (h : t.IsCommon) : ∃ doc, d.ofTree t = .ok doc :=
  h.over.exists_ofTree_ok d (fun _ e ht => ht.ofLeaf_ne d e) fun _ hk => hk.name?_ne_none

theorem IsCommon.exists_membersOfTree_ok {t : Tree} (h : t.IsCommon) : ∃ ms, d.membersOfTree t = .ok ms :=
  h.over.exists_membersOfTree_ok d (fun _ e ht => ht.ofLeaf_ne d e) fun _ hk => hk.name?_ne_none

/-- **No name in a document of common data spells null.** -/
theorem IsCommon.spellsNull_eq_false {t : Tree} (h : t.IsCommon) {doc : Document α} (hdoc : d.ofTree t = .ok doc) :
    ∀ name ∈ doc.names, Yaml.spellsNull name.toList = false :=
  h.over.forall_names d (fun _ _ hk => hk.spellsNull_eq_false) hdoc

end

end Tree
end Interchange
