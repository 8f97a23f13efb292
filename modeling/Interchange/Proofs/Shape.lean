import Interchange.Proofs.Pairs
import Mathlib.Data.List.Range
/-!
# Shape — which tables are sequences

A table is a sequence exactly when its keys are the places up to its border, and that is when it has no more entries than
places up to there.  Its items can then be written into a list of that length, each at its place: no place is outside,
none is written twice and none is left over (`Table.shape_eq_sequence_or_mapping`).
-/
namespace Interchange

namespace Entries

section

variable {κ α : Type} [DecidableEq κ]

theorem isSome_get?_iff {k : κ} {es : Entries κ α} : (get? k es).isSome = true ↔ k ∈ keys es := by
  induction es with
  | nil => simp [get?, keys]
  | cons e es ih =>
    rw [get?, keys, List.map_cons, List.mem_cons]
    by_cases hk : e.1 = k
    · simp [hk]
    · rw [if_neg hk, ih]
      simp [Ne.symm hk, keys]

end

variable {α : Type}

theorem place?_eq_get? {n : Nat} (h0 : 0 < n) (hn : n < 2 ^ 63) (es : Entries Key α) :
    place? es n = get? (.ofPlace n) es := by
  have hk : ∀ k : Key, (k.place? == some n) = decide (k = .ofPlace n) := fun k => by
    rw [Bool.eq_iff_iff, beq_iff_eq, decide_eq_true_iff, Key.place?_eq_some]
    exact ⟨fun h => h.2.2, fun h => ⟨h0, hn, h⟩⟩
  induction es with
  | nil => rfl
  | cons e es ih =>
    rw [place?] at ih ⊢
    rw [List.find?_cons, hk, get?]
    by_cases he : e.1 = .ofPlace n
    · simp [he]
    · rw [if_neg he, ← ih, decide_eq_false he]

theorem place?_cons (e : Key × α) (es : Entries Key α) (n : Nat) :
    place? (e :: es) n = if e.1.place? = some n then some e.2 else place? es n := by
  rw [place?, List.find?_cons]
  by_cases he : e.1.place? = some n
  · simp [he]
  · rw [if_neg he, show (e.1.place? == some n) = false by simpa using he]
    rfl

theorem place?_eq_none {es : Entries Key α} {k : Key} (hk : k ∉ keys es) {n : Nat} (hn : k.place? = some n) :
    place? es n = none := by
  obtain ⟨h0, hlt, rfl⟩ := Key.place?_eq_some.1 hn
  rw [place?_eq_get? h0 hlt]
  by_contra hne
  exact hk (isSome_get?_iff.1 (Option.isSome_iff_ne_none.2 hne))

theorem isDense_iff {n : Nat} (hn : n < 2 ^ 63) {k : Key} : k.isDense n = true ↔ k ∈ placeKeys n := by
  rw [Key.isDense, Option.any_eq_true, mem_placeKeys]
  constructor
  · rintro ⟨i, hi, hle⟩
    obtain ⟨h0, -, rfl⟩ := Key.place?_eq_some.1 hi
    exact ⟨i, h0, of_decide_eq_true hle, rfl⟩
  · rintro ⟨i, h1, hle, rfl⟩
    exact ⟨i, Key.place?_eq_some.2 ⟨h1, by omega, rfl⟩, decide_eq_true hle⟩

/-! ## Items written into a list -/

/-- Values written into a list one after another, that of the integer `i` at position `i - 1`; a position outside the list
ends it.  Other keys have no position. -/
def fill? : List α → Entries Key α → Option (List α)
  | vs, [] => some vs
  | vs, (.integer i, v) :: es =>
    if 1 ≤ i.toInt ∧ i.toInt ≤ vs.length then fill? (vs.set (i.toInt - 1).toNat v) es else none
  | vs, _ :: es => fill? vs es

theorem fill?_cons {vs : List α} {e : Key × α} {es : Entries Key α} {n : Nat} (hn : e.1.place? = some n)
    (hle : n ≤ vs.length) : fill? vs (e :: es) = fill? (vs.set (n - 1) e.2) es := by
  obtain ⟨k, v⟩ := e
  obtain ⟨h0, hlt, rfl⟩ : 0 < n ∧ n < 2 ^ 63 ∧ k = .ofPlace n := Key.place?_eq_some.1 hn
  rw [Key.ofPlace, fill?, Int64.toInt_ofNat_of_lt hlt, if_pos (by omega)]
  congr
  omega

/-- **Distinct places inside a list are filled**, and nothing else in it changes. -/
theorem fill?_eq_some {es : Entries Key α} (hnd : (keys es).Nodup) : ∀ {vs : List α},
    (∀ k ∈ keys es, ∃ n, k.place? = some n ∧ n ≤ vs.length) → ∃ ws, fill? vs es = some ws ∧ ws.length = vs.length ∧
      ∀ i, ws[i]? = if i < vs.length then (place? es (i + 1)).or vs[i]? else none := by
  induction es with
  | nil =>
    intro vs _
    refine ⟨vs, rfl, rfl, fun i => ?_⟩
    by_cases hi : i < vs.length
    · rw [if_pos hi]; rfl
    · rw [if_neg hi, List.getElem?_eq_none (Nat.not_lt.1 hi)]
  | cons e es ih =>
    intro vs hin
    rw [keys, List.map_cons, List.nodup_cons] at hnd
    obtain ⟨n, hn, hle⟩ := hin e.1 List.mem_cons_self
    obtain ⟨ws, hws, hlen, hget⟩ := @ih hnd.2 (vs.set (n - 1) e.2) fun k hk => by
      rw [List.length_set]
      exact hin k (List.mem_cons_of_mem _ hk)
    have h0 := (Key.place?_eq_some.1 hn).1
    rw [List.length_set] at hlen hget
    refine ⟨ws, (fill?_cons hn hle).trans hws, hlen, fun i => (hget i).trans ?_⟩
    by_cases hi : i < vs.length
    · rw [if_pos hi, if_pos hi, place?_cons]
      by_cases hin : n = i + 1
      · -- the place is not met again, so what was written there stays
        have hne : place? es (i + 1) = none := place?_eq_none hnd.1 (hin ▸ hn)
        rw [if_pos (hin ▸ hn), hne, hin, Nat.add_sub_cancel, List.getElem?_set_self hi]
        rfl
      · have hkn : e.1.place? ≠ some (i + 1) := fun h => hin (Option.some.inj (hn.symm.trans h))
        rw [if_neg hkn, List.getElem?_set_ne (by omega)]
    · rw [if_neg hi, if_neg hi]

/-! ## Sequences -/

variable [HasNil α]

theorem border_lt (es : Entries Key α) : border es < 2 ^ 63 := length_sequence.2

theorem holds_of_le_border {es : Entries Key α} {i : Nat} (h1 : 1 ≤ i) (hi : i ≤ border es) : holds es i = true :=
  holds_of_le_borderFrom h1 hi

theorem placeKeys_subset_keys {es : Entries Key α} {n : Nat} (h : ∀ i, 1 ≤ i → i ≤ n → holds es i = true) :
    placeKeys n ⊆ keys es := fun k hk => by
  obtain ⟨i, h1, hi, rfl⟩ := mem_placeKeys.1 hk
  obtain ⟨v, hv, -⟩ := (Option.any_eq_true _ _).1 (h i h1 hi)
  rw [place?_eq_get? h1 (place_le_of_place? hv)] at hv
  exact isSome_get?_iff.1 (by rw [hv]; rfl)

/-- **Places that hold something take an entry each.** -/
theorem le_length_of_holds {es : Entries Key α} {n : Nat} (hn : n < 2 ^ 64) (h : ∀ i, 1 ≤ i → i ≤ n → holds es i = true) :
    n ≤ es.length := by
  have hsub := ((nodup_placeKeys hn).subperm (placeKeys_subset_keys h)).length_le
  rwa [length_placeKeys, length_keys] at hsub

/-- **The places up to the border take that many entries**, and the other entries are past it or have no place. -/
theorem border_le_length (es : Entries Key α) : border es ≤ es.length :=
  le_length_of_holds (Nat.lt_trans (border_lt es) (by decide)) fun _ => holds_of_le_border

theorem form_eq_sequence_iff {es : Entries Key α} :
    (∃ items, form es = .sequence items) ↔ ∀ k ∈ keys es, k ∈ placeKeys (border es) := by
  have hlt := border_lt es
  have hall : (es.all fun e => e.1.isDense (border es)) = true ↔ ∀ k ∈ keys es, k ∈ placeKeys (border es) := by
    simp only [List.all_eq_true, isDense_iff hlt, keys, List.forall_mem_map]
  rw [← hall, form]
  split
  · rename_i h; exact iff_of_true ⟨_, rfl⟩ h
  · rename_i h; exact iff_of_false (by simp) h

theorem keys_perm_of_length_eq {es : Entries Key α} (hlen : es.length = border es) :
    (placeKeys (border es)).Perm (keys es) := by
  have hsub : placeKeys (border es) ⊆ keys es := placeKeys_subset_keys fun _ => holds_of_le_border
  refine ((nodup_placeKeys (Nat.lt_trans (border_lt es) (by decide))).subperm hsub).perm_of_length_le ?_
  rw [length_placeKeys, length_keys, hlen]

theorem form_eq_sequence_iff_length {es : Entries Key α} (hnd : (keys es).Nodup) :
    (∃ items, form es = .sequence items) ↔ es.length = border es := by
  rw [form_eq_sequence_iff]
  constructor
  · intro h
    refine Nat.le_antisymm ?_ (border_le_length es)
    have hsub := (hnd.subperm (show keys es ⊆ placeKeys (border es) from h)).length_le
    rwa [length_placeKeys, length_keys] at hsub
  · exact fun hlen k hk => (keys_perm_of_length_eq hlen).mem_iff.2 hk

theorem form_of_not_sequence {es : Entries Key α} (h : ¬ ∃ items, form es = .sequence items) :
    form es = .mapping es := by
  cases hF : form es with
  | sequence items => exact absurd ⟨items, hF⟩ h
  | mapping fs => rw [form_eq_mapping hF]

/-- **An item of a sequence is what its place holds.** -/
theorem getElem?_sequence {es : Entries Key α} {i : Nat} (hi : i < border es) : (sequence es)[i]? = place? es (i + 1) := by
  have hsome : ∀ o ∈ (List.range (border es)).map fun i => place? es (i + 1), o.isSome = true := fun o ho => by
    obtain ⟨j, hj, rfl⟩ := List.mem_map.1 ho
    obtain ⟨v, hv, -⟩ := exists_place?_of_le_border (Nat.succ_pos j) (List.mem_range.1 hj)
    rw [hv]
    rfl
  have hmap : (sequence es).map some = (List.range (border es)).map fun i => place? es (i + 1) := by
    rw [sequence, List.map_filterMap_some_eq_filter_map_isSome, List.filter_eq_self.2 hsome]
  have hlen : i < (sequence es).length := by rwa [length_sequence.1]
  have hget := congrArg (fun l => l[i]?) hmap
  rw [List.getElem?_map, List.getElem?_map, List.getElem?_range hi, List.getElem?_eq_getElem hlen] at hget
  rw [List.getElem?_eq_getElem hlen]
  exact Option.some.inj hget

/-- **Entries that hold something are a sequence exactly when their keys are the places up to their number.** -/
theorem form_eq_sequence_iff_perm {es : Entries Key α} (hnd : (keys es).Nodup)
    (hnil : ∀ e ∈ es, HasNil.isNil e.2 = false) :
    (∃ items, form es = .sequence items) ↔ es.length < 2 ^ 63 ∧ (placeKeys es.length).Perm (keys es) := by
  rw [form_eq_sequence_iff_length hnd]
  constructor
  · intro hlen
    have hperm := keys_perm_of_length_eq hlen
    rw [← hlen] at hperm
    exact ⟨hlen ▸ border_lt es, hperm⟩
  · rintro ⟨hlt, hperm⟩
    rw [border, borderFrom_eq fun i h0 hi => ?_, Nat.zero_add]
    rw [Nat.zero_add] at hi
    obtain ⟨⟨k, v⟩, he, hk⟩ := List.mem_map.1 (hperm.mem_iff.1 (mem_placeKeys.2 ⟨i, h0, hi, rfl⟩))
    have hplace := place?_eq_some_of_mem hnd he (Key.place?_eq_some.2 ⟨h0, by omega, hk⟩)
    rw [holds, hplace, Option.any_some, hnil _ he]
    rfl

/-- **A sequence is its items at the places 1, 2, …**, in the order of insertion. -/
theorem perm_numbered {es : Entries Key α} (hnd : (keys es).Nodup) {items : List α} (hF : form es = .sequence items) :
    es.Perm (numbered items) := by
  obtain ⟨rfl, hdense⟩ := form_eq_sequence hF
  have hlen := (form_eq_sequence_iff_length hnd).1 ⟨_, hF⟩
  have hsub : es ⊆ numbered (sequence es) := fun e he => by
    obtain ⟨n, hn, hle⟩ := (Option.any_eq_true _ _).1 (hdense e he)
    obtain ⟨h0, hlt, hk⟩ := Key.place?_eq_some.1 hn
    have hle := of_decide_eq_true hle
    have hplace := place?_eq_some_of_mem hnd he hn
    refine List.mem_of_getElem? (i := n - 1) ?_
    rw [numbered, List.getElem?_mapIdx, getElem?_sequence (by omega), Nat.sub_add_cancel h0, hplace]
    exact congrArg some (Prod.ext hk.symm rfl)
  refine ((List.Nodup.of_map _ hnd).subperm hsub).perm_of_length_le ?_
  rw [numbered, List.length_mapIdx, length_sequence.1, hlen]

/-- **Values at the places 1, 2, … are a sequence**, if none stands for nothing. -/
theorem form_numbered {vs : List α} (hlen : vs.length < 2 ^ 63) (hnil : ∀ v ∈ vs, HasNil.isNil v = false) :
    form (numbered vs) = .sequence vs := by
  have hplaces : ∃ items, form (numbered vs) = .sequence items := by
    refine (form_eq_sequence_iff_perm (nodup_numbered hlen) fun e he =>
      hnil _ (snd_mem_of_mem_numbered he)).2 ⟨?_, ?_⟩
    · rwa [numbered, List.length_mapIdx]
    · rw [keys_numbered, numbered, List.length_mapIdx]
  obtain ⟨items, hitems⟩ := hplaces
  rw [hitems, (form_eq_sequence hitems).1, sequence_numbered hlen hnil]

end Entries

/-! ## Tables -/

namespace Table

theorem place?_entries (t : Table) {n : Nat} (h0 : 0 < n) (hn : n ≤ t.border) :
    Entries.place? t.entries n = some (t.get (.ofPlace n)) ∧ t.get (.ofPlace n) ≠ .nil := by
  obtain ⟨v, hv, hnil⟩ := Entries.exists_place?_of_le_border h0 hn
  have hget : t.get (.ofPlace n) = v := by
    rw [get, get?, ← Entries.place?_eq_get? h0 (Entries.place_le_of_place? hv), hv]
    rfl
  refine ⟨by rw [hget, hv], fun h => ?_⟩
  rw [← hget, h] at hnil
  cases hnil

/-- **The sequence of a table** is what it holds at the places 1, 2, … up to its border. -/
theorem sequence_eq_map (t : Table) : t.sequence = (List.range t.border).map fun i => t.get (.ofPlace (i + 1)) := by
  have hplace : ∀ i ∈ List.range t.border, Entries.place? t.entries (i + 1) = some (t.get (.ofPlace (i + 1))) :=
    fun i hi => (t.place?_entries (Nat.succ_pos i) (List.mem_range.1 hi)).1
  exact (List.filterMap_congr hplace).trans (congrFun List.filterMap_eq_map _)

theorem contains_iff (t : Table) (k : Key) : t.contains k = true ↔ k ∈ Entries.keys t.entries := Entries.isSome_get?_iff

theorem get_of_mem {t : Table} {k : Key} {v : Value} (hm : (k, v) ∈ t.entries) : t.get k = v := by
  rw [get, get?, Entries.get?_eq_some_of_mem t.nodup hm]
  rfl

theorem border_lt (t : Table) : t.border < 2 ^ 63 := Entries.border_lt t.entries

/-- **The places of a sequence**: each up to the border is the place of one entry, and there are no other entries. -/
theorem places_perm (t : Table) {items : List Value} (h : t.shape = .sequence items) :
    (t.entries.filterMap fun e => e.1.place?).Perm (List.range' 1 t.border) := by
  have hlen := (Entries.form_eq_sequence_iff_length t.nodup).1 ⟨items, h⟩
  have hperm := (Entries.keys_perm_of_length_eq hlen).symm.filterMap Key.place?
  have hleft : t.entries.filterMap (fun e => e.1.place?) = (Entries.keys t.entries).filterMap Key.place? := by
    rw [Entries.keys, List.filterMap_map]
    rfl
  have hright : (Entries.placeKeys t.border).filterMap Key.place? = List.range' 1 t.border := by
    rw [Entries.placeKeys, List.filterMap_map, List.range'_eq_map_range, ← List.filterMap_eq_map]
    refine List.filterMap_congr fun i hi => ?_
    rw [List.mem_range] at hi
    have hlt := t.border_lt
    exact (Key.place?_eq_some.2 ⟨Nat.succ_pos i, by omega, rfl⟩).trans (by simp [Nat.add_comm])
  rw [hleft, ← hright]
  exact hperm

theorem fill?_eq_items (t : Table) {items : List Value} (h : t.shape = .sequence items) :
    Entries.fill? (List.replicate t.border .nil) t.entries = some items := by
  obtain ⟨rfl, hdense⟩ := Entries.form_eq_sequence h
  have hin : ∀ k ∈ Entries.keys t.entries, ∃ n, k.place? = some n ∧
      n ≤ (List.replicate t.border Value.nil).length := fun k hk => by
    obtain ⟨e, he, rfl⟩ := List.mem_map.1 hk
    obtain ⟨n, hn, hle⟩ := (Option.any_eq_true _ _).1 (hdense e he)
    rw [List.length_replicate]
    exact ⟨n, hn, of_decide_eq_true hle⟩
  obtain ⟨ws, hws, -, hget⟩ := Entries.fill?_eq_some t.nodup hin
  rw [hws, Option.some.injEq]
  refine List.ext_getElem? fun i => ?_
  rw [hget, List.length_replicate, show Entries.sequence t.entries = t.sequence from rfl, sequence_eq_map,
    List.getElem?_map]
  by_cases hi : i < t.border
  · rw [if_pos hi, (t.place?_entries (Nat.succ_pos i) hi).1, List.getElem?_range hi]
    rfl
  · rw [if_neg hi, List.getElem?_eq_none (by rw [List.length_range]; omega)]
    rfl

/-- **A table is a sequence or a mapping.**  It is a sequence exactly when its keys are the places up to its border and hold
something, which is when it has as many entries as there are places up to there.  Then its items are what it holds at the
places in their order, none of them nil, whatever the order of insertion: written one after another into a list of that
length they fill it, every position being inside and written once.  Any other table is the mapping of all its entries, each
once, in the order of insertion. -/
theorem shape_eq_sequence_or_mapping (t : Table) :
    t.border < 2 ^ 63 ∧
    ((∃ items, t.shape = .sequence items) ↔
      (∀ k, t.contains k = true ↔ ∃ i, 1 ≤ i ∧ i ≤ t.border ∧ k = .ofPlace i) ∧ ∀ e ∈ t.entries, e.2 ≠ .nil) ∧
    ((∃ items, t.shape = .sequence items) ↔ t.size = t.border) ∧
    (∀ items, t.shape = .sequence items → items.length = t.border ∧
      (∀ i, 1 ≤ i → i ≤ t.border → items[i - 1]? = some (t.get (.ofPlace i))) ∧ (∀ v ∈ items, v ≠ .nil) ∧
      Entries.fill? (List.replicate t.border .nil) t.entries = some items ∧
      (t.entries.filterMap fun e => e.1.place?).Perm (List.range' 1 t.border)) ∧
    ((¬ ∃ items, t.shape = .sequence items) → t.shape = .mapping t.entries ∧ (Entries.keys t.entries).Nodup) := by
  have hlen : (∃ items, t.shape = .sequence items) ↔ t.size = t.border := Entries.form_eq_sequence_iff_length t.nodup
  refine ⟨t.border_lt, ⟨fun hseq => ⟨fun k => ?_, fun e he hnil => ?_⟩, fun h => ?_⟩, hlen, fun items h => ?_, fun h => ?_⟩
  · rw [contains_iff, ← Entries.mem_placeKeys]
    exact (Entries.keys_perm_of_length_eq (hlen.1 hseq)).mem_iff.symm
  · obtain ⟨items, h⟩ := hseq
    have hmem := Entries.mem_sequence t.nodup h he
    rw [(Entries.form_eq_sequence h).1, hnil] at hmem
    have := Entries.isNil_of_mem_sequence hmem
    cases this
  · refine Entries.form_eq_sequence_iff.2 fun k hk => ?_
    exact Entries.mem_placeKeys.2 ((h.1 k).1 ((t.contains_iff k).2 hk))
  · have hitems : items = t.sequence := (Entries.form_eq_sequence h).1
    have hget : ∀ i, 1 ≤ i → i ≤ t.border → items[i - 1]? = some (t.get (.ofPlace i)) := fun i h1 hi => by
      rw [hitems, sequence_eq_map, List.getElem?_map, List.getElem?_range (by omega), Option.map_some,
        Nat.sub_add_cancel h1]
    refine ⟨?_, hget, fun v hv hnil => ?_, t.fill?_eq_items h, t.places_perm h⟩
    · rw [hitems, sequence_eq_map, List.length_map, List.length_range]
    · rw [hitems, hnil] at hv
      have := Entries.isNil_of_mem_sequence hv
      cases this
  · exact ⟨Entries.form_of_not_sequence h, t.nodup⟩

end Table
end Interchange
