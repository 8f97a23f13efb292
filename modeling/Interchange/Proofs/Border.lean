import Interchange.Proofs.Shape
/-!
# Border — appending to a table

The border is the number of places that hold something before the first that does not (`Entries.border_eq_iff`).  Appending
writes to the place after it, which has no entry or one that holds nil, so no data is lost; the border then moves on over
all that already waited behind that place (`Table.push_loses_nothing`).  Values appended to the empty table one after another
are the table of the values (`Table.foldl_push_ofValues`).
-/
namespace Interchange

namespace Entries

/-! ## Setting one key -/

section

variable {κ α : Type} [DecidableEq κ]

theorem get?_set (k k' : κ) (v : α) : ∀ es : Entries κ α, get? k' (set k v es) = if k = k' then some v else get? k' es
  | [] => rfl
  | (k₁, v₁) :: es => by
    rw [set, get?]
    by_cases h₁ : k₁ = k
    · subst h₁
      rw [if_pos rfl, get?]
      split <;> rfl
    · rw [if_neg h₁, get?, get?_set k k' v es]
      by_cases hk : k₁ = k'
      · rw [if_pos hk, if_pos hk, if_neg fun h => h₁ (hk.trans h.symm)]
      · rw [if_neg hk, if_neg hk]

/-- **A key that is present is set in its place**, and the entries before and after it stay. -/
theorem set_of_get?_eq_some {k : κ} {w : α} (v : α) : ∀ {es : Entries κ α}, get? k es = some w →
    ∃ before after, es = before ++ (k, w) :: after ∧ set k v es = before ++ (k, v) :: after
  | (k₁, v₁) :: es, h => by
    rw [get?] at h
    rw [set]
    split at h
    · rename_i hk
      cases h
      exact ⟨[], es, by rw [hk]; rfl, if_pos hk⟩
    · rename_i hk
      obtain ⟨before, after, rfl, hset⟩ := set_of_get?_eq_some v h
      exact ⟨(k₁, v₁) :: before, after, rfl, by rw [if_neg hk, hset]; rfl⟩

theorem length_set_le (k : κ) (v : α) (es : Entries κ α) : (set k v es).length ≤ es.length + 1 := by
  cases hget : get? k es with
  | none =>
    have hk : k ∉ keys es := fun hm => by rw [← isSome_get?_iff, hget] at hm; cases hm
    rw [set_of_not_mem hk, List.length_append, List.length_singleton]
  | some w =>
    obtain ⟨before, after, rfl, hset⟩ := set_of_get?_eq_some v hget
    rw [hset, List.length_append, List.length_append, List.length_cons, List.length_cons]
    exact Nat.le_succ _

end

/-! ## The border -/

variable {α : Type} [HasNil α] {es : Entries Key α}

/-- A count that does not use up its fuel ends at a place that holds nothing. -/
theorem holds_succ_borderFrom : ∀ {fuel n : Nat}, borderFrom es fuel n < n + fuel →
    holds es (borderFrom es fuel n + 1) = false
  | 0, n, h => absurd h (Nat.lt_irrefl n)
  | fuel + 1, n, h => by
    rw [borderFrom] at h ⊢
    split at h
    · rename_i hn
      rw [if_pos hn]
      exact holds_succ_borderFrom (by omega)
    · rename_i hn
      rw [if_neg hn]
      exact Bool.eq_false_iff.2 hn

/-- **The place after the border holds nothing.**  The count starts with as much fuel as there are entries, so it could only
be used up if every entry took a place, and then none is left for one place more. -/
theorem holds_succ_border (es : Entries Key α) : holds es (border es + 1) = false := by
  by_cases hlt : border es < es.length
  · exact holds_succ_borderFrom (by rwa [Nat.zero_add])
  · refine Bool.eq_false_iff.2 fun hnext => ?_
    have hlt := border_lt es
    have hle : border es + 1 ≤ es.length := le_length_of_holds (by omega) fun i h1 hi => by
      by_cases hlast : i = border es + 1
      · rwa [hlast]
      · exact holds_of_le_border h1 (by omega)
    omega

/-- **The border is the only number of places that hold something up to one that does not.** -/
theorem border_eq_iff {n : Nat} : border es = n ↔ (∀ i, 1 ≤ i → i ≤ n → holds es i = true) ∧ holds es (n + 1) = false := by
  constructor
  · rintro rfl
    exact ⟨fun i h1 hi => holds_of_le_border h1 hi, holds_succ_border es⟩
  · rintro ⟨hup, hnext⟩
    rcases Nat.lt_trichotomy (border es) n with hlt | heq | hgt
    · have hfalse := holds_succ_border es
      rw [hup _ (by omega) hlt] at hfalse
      cases hfalse
    · exact heq
    · have htrue : holds es (n + 1) = true := holds_of_le_border (Nat.succ_pos n) hgt
      rw [hnext] at htrue
      cases htrue

end Entries

namespace Table

variable {t : Table}

theorem eq_of_entries {s t : Table} (h : s.entries = t.entries) : s = t := by
  cases s
  cases t
  cases h
  rfl

theorem get_set (t : Table) (k k' : Key) (v : Value) : (t.set k v).get k' = if k = k' then v else t.get k' := by
  rw [get, get?, set, Entries.get?_set]
  split <;> rfl

theorem holds_iff {n : Nat} (h1 : 1 ≤ n) (hn : n < 2 ^ 63) :
    Entries.holds t.entries n = true ↔ t.get (.ofPlace n) ≠ .nil := by
  rw [Entries.holds, Entries.place?_eq_get? h1 hn, get, get?]
  cases Entries.get? (.ofPlace n) t.entries with
  | none => simp
  | some v => cases v <;> simp [HasNil.isNil, Value.isNil]

/-- **A run of places that hold something**: `k` of them after the place `n`, and the next one holds nothing. -/
structure IsRun (t : Table) (n k : Nat) : Prop where
  holds : ∀ i, n < i → i ≤ n + k → t.get (.ofPlace i) ≠ .nil
  ends : t.get (.ofPlace (n + k + 1)) = .nil

/-- **The border is the run of places from the first one on.** -/
theorem border_eq_iff_isRun {n : Nat} (hn : n + 1 < 2 ^ 63) : t.border = n ↔ t.IsRun 0 n := by
  have hends : Entries.holds t.entries (n + 1) = false ↔ t.get (.ofPlace (n + 1)) = .nil := by
    rw [← Bool.not_eq_true, holds_iff (Nat.succ_pos n) hn, not_not]
  rw [border, Entries.border_eq_iff, hends]
  constructor
  · rintro ⟨hup, hnext⟩
    exact ⟨fun i h1 hi => (holds_iff h1 (by omega)).1 (hup i h1 (by omega)), by rwa [Nat.zero_add]⟩
  · rintro ⟨hup, hnext⟩
    exact ⟨fun i h1 hi => (holds_iff h1 (by omega)).2 (hup i h1 (by omega)), by rwa [Nat.zero_add] at hnext⟩

theorem isRun_border (hroom : t.border + 1 < 2 ^ 63) : t.IsRun 0 t.border := (border_eq_iff_isRun hroom).1 rfl

/-! ## Appending -/

/-- The key that is appended at. -/
def next (t : Table) : Key := .ofPlace (t.border + 1)

theorem ofPlace_eq_next_iff {t : Table} {i : Nat} (hi : i < 2 ^ 63) : t.next = .ofPlace i ↔ i = t.border + 1 := by
  have hlt := t.border_lt
  exact ⟨fun h => (Entries.ofPlace_inj (by omega) (by omega) h).symm, fun h => by rw [h]; rfl⟩

theorem get_push (t : Table) (v : Value) (k : Key) : (t.push v).get k = if t.next = k then v else t.get k :=
  t.get_set t.next k v

theorem size_push_le (t : Table) (v : Value) : (t.push v).size ≤ t.size + 1 := Entries.length_set_le t.next v t.entries

theorem border_le_size (t : Table) : t.border ≤ t.size := Entries.border_le_length t.entries

/-- **What is appended at holds nil or nothing.** -/
theorem get_next (hroom : t.border + 1 < 2 ^ 63) : t.get t.next = .nil := by
  have hends := (isRun_border hroom).ends
  rwa [Nat.zero_add] at hends

/-- **One entry is written**: a new one at the end, or one that held nil in its place. -/
theorem entries_push (hroom : t.border + 1 < 2 ^ 63) (v : Value) :
    (t.contains t.next = false ∧ (t.push v).entries = t.entries ++ [(t.next, v)]) ∨
      ∃ before after, t.entries = before ++ (t.next, .nil) :: after ∧
        (t.push v).entries = before ++ (t.next, v) :: after := by
  have hnil := get_next hroom
  rw [get] at hnil
  cases hget : t.get? t.next with
  | none =>
    have hk : t.next ∉ Entries.keys t.entries := fun hm => by
      have hsome := Entries.isSome_get?_iff.2 hm
      rw [show Entries.get? t.next t.entries = none from hget] at hsome
      cases hsome
    exact .inl ⟨by rw [contains, hget]; rfl, Entries.set_of_not_mem hk⟩
  | some w =>
    rw [hget] at hnil
    obtain rfl : w = .nil := hnil
    exact .inr (Entries.set_of_get?_eq_some v hget)

/-- **Appended nil leaves the border where it is.** -/
theorem border_push_nil (hroom : t.border + 1 < 2 ^ 63) : (t.push .nil).border = t.border := by
  have hrun := isRun_border hroom
  refine (border_eq_iff_isRun hroom).2 ⟨fun i h0 hi => ?_, ?_⟩
  · rw [get_push, if_neg fun h => by rw [ofPlace_eq_next_iff (by omega)] at h; omega]
    exact hrun.holds i h0 hi
  · rw [get_push, Nat.zero_add]
    exact if_pos rfl

/-- **Appended data moves the border by one**, and on over all that waited behind that place. -/
theorem exists_border_push (hroom : t.size + 2 < 2 ^ 63) {v : Value} (hv : v ≠ .nil) :
    ∃ waiting, t.IsRun (t.border + 1) waiting ∧ (t.push v).border = t.border + 1 + waiting := by
  have hsize := size_push_le t v
  have hle := t.border_le_size
  have hle' := (t.push v).border_le_size
  have hrun := isRun_border (t := t) (by omega)
  have hrun' := isRun_border (t := t.push v) (by omega)
  have hget : ∀ i, i < 2 ^ 63 → i ≠ t.border + 1 → (t.push v).get (.ofPlace i) = t.get (.ofPlace i) := fun i hi hne => by
    rw [get_push, if_neg fun h => hne ((ofPlace_eq_next_iff hi).1 h)]
  -- the new border is past the new entry, as all places up to it hold something
  have hpast : t.border + 1 ≤ (t.push v).border := by
    by_contra hlt
    have hends := hrun'.ends
    rw [Nat.zero_add] at hends
    by_cases hlast : (t.push v).border = t.border
    · rw [hlast, get_push] at hends
      exact hv ((if_pos rfl).symm.trans hends)
    · rw [hget _ (by omega) (by omega)] at hends
      exact hrun.holds _ (by omega) (by omega) hends
  obtain ⟨waiting, hwaiting⟩ := Nat.exists_eq_add_of_le hpast
  refine ⟨waiting, ⟨fun i hi hle => ?_, ?_⟩, hwaiting⟩
  · rw [← hget i (by omega) (by omega)]
    exact hrun'.holds i (by omega) (by omega)
  · have hends := hrun'.ends
    rwa [Nat.zero_add, hwaiting, hget _ (by omega) (by omega)] at hends

/-! ## Values appended one after another -/

theorem entries_ofValues {vs : List Value} (hlen : vs.length < 2 ^ 63) : (ofValues vs).entries = Entries.numbered vs :=
  Entries.ofList_eq_self (Entries.nodup_numbered hlen)

theorem size_ofValues {vs : List Value} (hlen : vs.length < 2 ^ 63) : (ofValues vs).size = vs.length := by
  rw [size, entries_ofValues hlen, Entries.numbered, List.length_mapIdx]

theorem isNil_eq_false {v : Value} (hv : v ≠ .nil) : HasNil.isNil v = false := by
  cases v <;> first | rfl | exact absurd rfl hv

/-- **The table of values that hold something is their sequence.** -/
theorem shape_ofValues {vs : List Value} (hlen : vs.length < 2 ^ 63) (hvs : ∀ v ∈ vs, v ≠ .nil) :
    (ofValues vs).shape = .sequence vs := by
  rw [shape, entries_ofValues hlen]
  exact Entries.form_numbered hlen fun v hv => isNil_eq_false (hvs v hv)

theorem border_ofValues {vs : List Value} (hlen : vs.length < 2 ^ 63) (hvs : ∀ v ∈ vs, v ≠ .nil) :
    (ofValues vs).border = vs.length := by
  have hseq := (Entries.form_eq_sequence_iff_length (ofValues vs).nodup).1 ⟨vs, shape_ofValues hlen hvs⟩
  exact hseq.symm.trans (size_ofValues hlen)

theorem push_ofValues {vs : List Value} (hlen : vs.length + 1 < 2 ^ 63) (hvs : ∀ v ∈ vs, v ≠ .nil) (v : Value) :
    (ofValues vs).push v = ofValues (vs ++ [v]) := by
  have hnext : (ofValues vs).next = .ofPlace (vs.length + 1) := by rw [next, border_ofValues (by omega) hvs]
  have hnumbered : Entries.numbered (vs ++ [v]) = Entries.numbered vs ++ [(.ofPlace (vs.length + 1), v)] := by
    rw [Entries.numbered, List.mapIdx_concat]
    rfl
  refine eq_of_entries ?_
  rw [entries_ofValues (by rwa [List.length_append]), hnumbered, ← hnext, ← entries_ofValues (by omega)]
  refine ((entries_push (by rwa [border_ofValues (by omega) hvs]) v).resolve_right ?_).2
  rintro ⟨before, after, hentries, -⟩
  rw [entries_ofValues (by omega)] at hentries
  have hmem : ((ofValues vs).next, Value.nil) ∈ Entries.numbered vs := by
    rw [hentries]
    exact List.mem_append_right _ List.mem_cons_self
  exact hvs _ (Entries.snd_mem_of_mem_numbered hmem) rfl

theorem foldl_push_ofValues : ∀ {ws vs : List Value}, (vs ++ ws).length < 2 ^ 63 → (∀ v ∈ vs ++ ws, v ≠ .nil) →
    ws.foldl push (ofValues vs) = ofValues (vs ++ ws)
  | [], vs, _, _ => by rw [List.append_nil, List.foldl_nil]
  | w :: ws, vs, hlen, hvs => by
    have happ : vs ++ w :: ws = vs ++ [w] ++ ws := (List.append_assoc vs [w] ws).symm
    have hlen' : vs.length + 1 < 2 ^ 63 := by rw [List.length_append, List.length_cons] at hlen; omega
    rw [List.foldl_cons, push_ofValues hlen' fun v hv => hvs v (List.mem_append_left _ hv), happ]
    rw [happ] at hlen hvs
    exact foldl_push_ofValues hlen hvs

/-- **Appending loses nothing**, however many values are appended. -/
theorem get_foldl_push {k : Key} : ∀ {vs : List Value} {t : Table}, t.size + vs.length + 1 < 2 ^ 63 → t.get k ≠ .nil →
    (vs.foldl push t).get k = t.get k
  | [], _, _, _ => rfl
  | v :: vs, t, hroom, hk => by
    rw [List.length_cons] at hroom
    have hsize := size_push_le t v
    have hle := t.border_le_size
    have hkept : (t.push v).get k = t.get k := by
      rw [get_push, if_neg]
      rintro rfl
      exact hk (get_next (by omega))
    rw [List.foldl_cons, get_foldl_push (by omega) (by rwa [hkept]), hkept]

/-- **Appending to a table**, which has fewer entries than there are places.  One entry is written, at the place after the
border: a new one at the end, or one that held nil in its place; all others stay as they were, in their order, so that
nothing is lost however many values are appended.  Data moves the border by one and by the number of places that waited
behind that one, and nil leaves it where it is.  Values that are not nil, appended to the empty table one after another,
make the table of these values, and that is their sequence. -/
theorem push_loses_nothing (t : Table) (hroom : t.size + 2 < 2 ^ 63) :
    (∀ v, (t.contains t.next = false ∧ (t.push v).entries = t.entries ++ [(t.next, v)]) ∨
      ∃ before after, t.entries = before ++ (t.next, .nil) :: after ∧
        (t.push v).entries = before ++ (t.next, v) :: after) ∧
    (∀ v, v ≠ .nil → ∃ waiting, t.IsRun (t.border + 1) waiting ∧ (t.push v).border = t.border + 1 + waiting) ∧
    (t.push .nil).border = t.border ∧
    (∀ vs : List Value, t.size + vs.length + 1 < 2 ^ 63 → ∀ k, t.get k ≠ .nil → (vs.foldl push t).get k = t.get k) ∧
    ∀ vs : List Value, vs.length < 2 ^ 63 → (∀ v ∈ vs, v ≠ .nil) →
      vs.foldl push .empty = ofValues vs ∧ (ofValues vs).shape = .sequence vs := by
  have hle := t.border_le_size
  refine ⟨entries_push (by omega), fun v hv => exists_border_push hroom hv, border_push_nil (by omega),
    fun vs hvs k hk => get_foldl_push hvs hk, fun vs hlen hvs => ⟨?_, shape_ofValues hlen hvs⟩⟩
  have hfold : vs.foldl push (ofValues []) = ofValues ([] ++ vs) := foldl_push_ofValues hlen hvs
  exact hfold

/-- A table whose second place holds nil, with two places waiting behind it and two keys that are no places. -/
def gapped : Table := ofPairs [(.string "n", .integer 0), (.ofPlace 4, .string "d"), (.ofPlace 1, .string "a"),
  (.ofPlace 2, .nil), (.bool true, .nil), (.ofPlace 3, .string "c"), (.ofPlace 6, .string "f")]

/-- The appended value takes the place of the nil, and the border moves over both places behind it. -/
theorem push_loses_nothing_gapped : gapped.size + 2 < 2 ^ 63 ∧ Value.string "b" ≠ .nil ∧ gapped.get (.ofPlace 6) ≠ .nil ∧
    gapped.border = 1 ∧ gapped.IsRun 2 2 ∧ (gapped.push (.string "b")).border = 4 ∧ (gapped.push .nil).border = 1 ∧
    ([.string "b", .string "e"].foldl push gapped).get (.ofPlace 6) = .string "f" ∧
    ([.string "a", .string "b"].foldl push .empty).shape = .sequence [.string "a", .string "b"] := by
  have hroom : gapped.size + 2 < 2 ^ 63 := by decide
  have hborder : gapped.border = 1 := by decide
  have hpushed : (gapped.push (.string "b")).border = 4 := by decide
  obtain ⟨-, hdata, hnil, hkept, hlist⟩ := push_loses_nothing gapped hroom
  obtain ⟨waiting, hrun, hwaiting⟩ := hdata (.string "b") nofun
  rw [hborder] at hrun hwaiting
  rw [hpushed] at hwaiting
  obtain rfl : waiting = 2 := by omega
  have hf : gapped.get (.ofPlace 6) ≠ .nil := by decide
  obtain ⟨hfold, hshape⟩ := hlist [.string "a", .string "b"] (by decide) (by decide)
  refine ⟨hroom, nofun, hf, hborder, hrun, hpushed, hnil.trans hborder, ?_, hfold ▸ hshape⟩
  exact (hkept [.string "b", .string "e"] (by decide) _ hf).trans (by decide)

end Table
end Interchange
