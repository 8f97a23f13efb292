import Interchange.Proofs.Form
import Mathlib.Data.List.Perm.Subperm
/-!
# Pairs — entries set one after another

Pairs with distinct keys are the entries they give (`ofList_eq_self`).  Values can be changed, and keys renamed apart,
before or after they are set.  The places 1, 2, … are distinct keys as far as there are integers for them.
-/
namespace Interchange
namespace Entries

section

variable {κ α : Type} [DecidableEq κ]

omit [DecidableEq κ] in
theorem length_keys (es : Entries κ α) : (keys es).length = es.length := List.length_map _

omit [DecidableEq κ] in
theorem mem_keys_of_mem {es : Entries κ α} {e : κ × α} (he : e ∈ es) : e.1 ∈ keys es := List.mem_map_of_mem he

omit [DecidableEq κ] in
theorem exists_mem_of_mem_keys {es : Entries κ α} {k : κ} (hk : k ∈ keys es) : ∃ v, (k, v) ∈ es := by
  obtain ⟨e, he, rfl⟩ := List.mem_map.1 hk
  exact ⟨e.2, he⟩

theorem set_of_not_mem {k : κ} {v : α} {es : Entries κ α} (h : k ∉ keys es) : set k v es = es ++ [(k, v)] := by
  induction es with
  | nil => rfl
  | cons e es ih =>
    obtain ⟨k', v'⟩ := e
    rw [keys, List.map_cons, List.mem_cons, not_or] at h
    rw [set, if_neg (Ne.symm h.1), ih h.2]
    rfl

theorem set_ne_nil (k : κ) (v : α) (es : Entries κ α) : set k v es ≠ [] := by
  cases es with
  | nil => exact List.cons_ne_nil _ _
  | cons e es =>
    rw [set]
    split <;> exact List.cons_ne_nil _ _

theorem setAll_cons (es : Entries κ α) (p : κ × α) (ps : List (κ × α)) :
    setAll es (p :: ps) = setAll (set p.1 p.2 es) ps := rfl

theorem setAll_of_nodup : ∀ (ps : List (κ × α)) (es : Entries κ α), (keys (es ++ ps)).Nodup →
    setAll es ps = es ++ ps
  | [], es, _ => (List.append_nil es).symm
  | (k, v) :: ps, es, h => by
    have hk : k ∉ keys es := fun hm => by
      rw [keys, List.map_append, List.nodup_append] at h
      exact h.2.2 _ hm k List.mem_cons_self rfl
    have happ : es ++ [(k, v)] ++ ps = es ++ (k, v) :: ps := List.append_assoc es [(k, v)] ps
    rw [setAll_cons, set_of_not_mem hk, setAll_of_nodup ps _ (by rw [happ]; exact h), happ]

/-- **Pairs with distinct keys are entries as they are.** -/
theorem ofList_eq_self {ps : List (κ × α)} (h : (keys ps).Nodup) : ofList ps = ps := setAll_of_nodup ps [] h

theorem mem_set {k : κ} {v : α} {e : κ × α} : ∀ {es : Entries κ α}, e ∈ set k v es → e = (k, v) ∨ e ∈ es
  | [], h => .inl (List.mem_singleton.1 h)
  | (k', v') :: es, h => by
    rw [set] at h
    split at h
    · exact (List.mem_cons.1 h).imp_right (List.mem_cons_of_mem _)
    · rcases List.mem_cons.1 h with rfl | h
      · exact .inr List.mem_cons_self
      · exact (mem_set h).imp_right (List.mem_cons_of_mem _)

theorem mem_setAll {e : κ × α} : ∀ {ps : List (κ × α)} {es : Entries κ α}, e ∈ setAll es ps → e ∈ ps ∨ e ∈ es
  | [], _, h => .inr h
  | p :: ps, es, h => by
    rw [setAll_cons] at h
    rcases mem_setAll h with h | h
    · exact .inl (List.mem_cons_of_mem _ h)
    · rcases mem_set h with rfl | h
      · exact .inl List.mem_cons_self
      · exact .inr h

theorem mem_of_mem_ofList {e : κ × α} {ps : List (κ × α)} (h : e ∈ ofList ps) : e ∈ ps :=
  (mem_setAll h).resolve_right List.not_mem_nil

theorem mem_keys_setAll {k : κ} : ∀ {ps : List (κ × α)} {es : Entries κ α},
    k ∈ keys (setAll es ps) ↔ k ∈ keys es ∨ k ∈ keys ps
  | [], es => by simp [setAll, keys]
  | p :: ps, es => by
    have hcons : k ∈ keys (p :: ps) ↔ k = p.1 ∨ k ∈ keys ps := List.mem_cons
    rw [setAll_cons, mem_keys_setAll, mem_keys_set, hcons, or_assoc, or_left_comm]

theorem mem_keys_ofList {k : κ} {ps : List (κ × α)} : k ∈ keys (ofList ps) ↔ k ∈ keys ps := by
  rw [ofList, mem_keys_setAll]
  simp [keys]

/-- **A pair is kept** if no other has its key. -/
theorem mem_ofList {ps : List (κ × α)} {p : κ × α} (hp : p ∈ ps) (hunique : ∀ q ∈ ps, q.1 = p.1 → q = p) : p ∈ ofList ps := by
  have hkey : p.1 ∈ keys (ofList ps) := mem_keys_ofList.2 (List.mem_map_of_mem hp)
  obtain ⟨q, hq, hsame⟩ := List.mem_map.1 hkey
  rwa [← hunique q (mem_of_mem_ofList hq) hsame]

theorem mem_ofList_iff {ps : List (κ × α)} (h : ∀ p ∈ ps, ∀ q ∈ ps, p.1 = q.1 → p = q) {p : κ × α} :
    p ∈ ofList ps ↔ p ∈ ps :=
  ⟨mem_of_mem_ofList, fun hp => mem_ofList hp fun q hq hsame => h q hq p hp hsame⟩

/-- **No pair is lost exactly when the keys are distinct.** -/
theorem length_ofList_eq_iff {ps : List (κ × α)} : (ofList ps).length = ps.length ↔ (keys ps).Nodup := by
  constructor
  · intro hlen
    have hnd : (keys (ofList ps)).Nodup := nodup_keys_ofList
    have hle : (keys ps).length ≤ (keys (ofList ps)).length := by
      rw [length_keys, length_keys]
      exact Nat.le_of_eq hlen.symm
    exact ((hnd.subperm fun k hk => mem_keys_ofList.1 hk).perm_of_length_le hle).nodup_iff.1 hnd
  · intro hnd
    rw [ofList_eq_self hnd]

theorem set_append_of_not_mem {k : κ} (v : α) : ∀ {es : Entries κ α}, k ∉ keys es → ∀ fs : Entries κ α,
    set k v (es ++ fs) = es ++ set k v fs
  | [], _, _ => rfl
  | (k', v') :: es, h, fs => by
    rw [keys, List.map_cons, List.mem_cons, not_or] at h
    rw [List.cons_append, set, if_neg (Ne.symm h.1), set_append_of_not_mem v h.2]
    rfl

theorem setAll_append_of_not_mem {es : Entries κ α} : ∀ {ps : List (κ × α)}, (∀ k ∈ keys ps, k ∉ keys es) →
    ∀ fs : Entries κ α, setAll (es ++ fs) ps = es ++ setAll fs ps
  | [], _, _ => rfl
  | p :: ps, h, fs => by
    rw [setAll_cons, set_append_of_not_mem p.2 (h p.1 List.mem_cons_self),
      setAll_append_of_not_mem (fun k hk => h k (List.mem_cons_of_mem _ hk)), setAll_cons]

/-- **Pairs with other keys go behind.** -/
theorem ofList_append {ps qs : List (κ × α)} (h : ∀ k ∈ keys qs, k ∉ keys ps) :
    ofList (ps ++ qs) = ofList ps ++ ofList qs := by
  have hset := @setAll_append_of_not_mem _ _ _ (ofList ps) _ (fun k hk hm => h k hk (mem_keys_ofList.1 hm)) []
  rw [List.append_nil] at hset
  rw [ofList, setAll, List.foldl_append]
  exact hset

omit [DecidableEq κ] in
theorem eq_of_mem_of_mem {es : Entries κ α} (hnd : (keys es).Nodup) {k : κ} {a b : α} (ha : (k, a) ∈ es)
    (hb : (k, b) ∈ es) : a = b :=
  congrArg Prod.snd (List.inj_on_of_nodup_map hnd ha hb rfl)

/-- **Among distinct keys, an entry is what its key finds.** -/
theorem get?_eq_some_of_mem {k : κ} {v : α} : ∀ {es : Entries κ α}, (keys es).Nodup → (k, v) ∈ es →
    get? k es = some v
  | (k', v') :: es, hnd, hm => by
    rw [keys, List.map_cons, List.nodup_cons] at hnd
    rw [get?]
    rcases List.mem_cons.1 hm with heq | hm
    · cases heq; rw [if_pos rfl]
    · have hk : k ∈ keys es := List.mem_map.2 ⟨(k, v), hm, rfl⟩
      rw [if_neg (by rintro rfl; exact hnd.1 hk), get?_eq_some_of_mem hnd.2 hm]

theorem mem_of_get?_eq_some {k : κ} {v : α} : ∀ {es : Entries κ α}, get? k es = some v → (k, v) ∈ es
  | (k', v') :: es, h => by
    rw [get?] at h
    split at h
    · rename_i hk
      cases h
      rw [hk]
      exact List.mem_cons_self
    · exact List.mem_cons_of_mem _ (mem_of_get?_eq_some h)

theorem map_set {κ' β : Type} [DecidableEq κ'] {f : κ → κ'} (hf : Function.Injective f) (g : α → β) (k : κ) (v : α) :
    ∀ es : Entries κ α, (set k v es).map (fun e => (f e.1, g e.2)) = set (f k) (g v) (es.map fun e => (f e.1, g e.2))
  | [] => rfl
  | (k', v') :: es => by
    rw [set, List.map_cons, set]
    by_cases hk : k' = k
    · rw [if_pos hk, if_pos (congrArg f hk)]; rfl
    · rw [if_neg hk, if_neg (fun h => hk (hf h)), List.map_cons, map_set hf g k v es]

theorem map_setAll {κ' β : Type} [DecidableEq κ'] {f : κ → κ'} (hf : Function.Injective f) (g : α → β) :
    ∀ (ps : List (κ × α)) (es : Entries κ α), (setAll es ps).map (fun e => (f e.1, g e.2)) =
      setAll (es.map fun e => (f e.1, g e.2)) (ps.map fun e => (f e.1, g e.2))
  | [], _ => rfl
  | p :: ps, es => by rw [setAll_cons, map_setAll hf g ps, map_set hf, List.map_cons, setAll_cons]

theorem map_ofList {κ' β : Type} [DecidableEq κ'] {f : κ → κ'} (hf : Function.Injective f) (g : α → β)
    (ps : List (κ × α)) : (ofList ps).map (fun e => (f e.1, g e.2)) = ofList (ps.map fun e => (f e.1, g e.2)) :=
  map_setAll hf g ps []

end

/-! ## Related values -/

section

variable {α β : Type} {R : α → β → Prop}

theorem Matches.keys_eq {es : Entries Key α} {fs : Entries Key β} (h : Matches R es fs) : keys es = keys fs := by
  induction h with
  | nil => rfl
  | cons hef _ ih => exact congrArg₂ List.cons hef.1 ih

theorem Matches.set {es : Entries Key α} {fs : Entries Key β} (h : Matches R es fs) (k : Key) {a : α} {b : β}
    (hab : R a b) : Matches R (es.set k a) (fs.set k b) := by
  induction h with
  | nil => exact .cons ⟨rfl, hab⟩ .nil
  | @cons e f _ _ hef hes ih =>
    obtain ⟨k1, a'⟩ := e
    obtain ⟨k2, b'⟩ := f
    obtain ⟨rfl, hr⟩ : k1 = k2 ∧ R a' b' := hef
    rw [Entries.set, Entries.set]
    split
    · exact .cons ⟨rfl, hab⟩ hes
    · exact .cons ⟨rfl, hr⟩ ih

theorem Matches.setAll {ps : List (Key × α)} {qs : List (Key × β)} (h : Matches R ps qs) :
    ∀ {es : Entries Key α} {fs : Entries Key β}, Matches R es fs → Matches R (es.setAll ps) (fs.setAll qs) := by
  induction h with
  | nil => exact fun hes => hes
  | @cons e f _ _ hef _ ih =>
    obtain ⟨k1, a⟩ := e
    obtain ⟨k2, b⟩ := f
    obtain ⟨rfl, hr⟩ : k1 = k2 ∧ R a b := hef
    exact fun hes => ih (hes.set k1 hr)

theorem Matches.ofList {ps : List (Key × α)} {qs : List (Key × β)} (h : Matches R ps qs) :
    Matches R (Entries.ofList ps) (Entries.ofList qs) := h.setAll .nil

end

/-! ## Places -/

section

variable {α β : Type}

/-- **Values at the places 1, 2, …** -/
def numbered (vs : List α) : List (Key × α) := vs.mapIdx fun i v => (Key.ofPlace (i + 1), v)

theorem matches_mapIdx {R : α → β → Prop} {vs : List α} {ws : List β} (h : List.Forall₂ R vs ws) :
    ∀ key : Nat → Key, Matches R (vs.mapIdx fun i v => (key i, v)) (ws.mapIdx fun i w => (key i, w)) := by
  induction h with
  | nil => exact fun _ => .nil
  | cons hvw _ ih =>
    intro key
    rw [List.mapIdx_cons, List.mapIdx_cons]
    exact .cons ⟨rfl, hvw⟩ (ih fun i => key (i + 1))

theorem matches_numbered {R : α → β → Prop} {vs : List α} {ws : List β} (h : List.Forall₂ R vs ws) :
    Matches R (numbered vs) (numbered ws) := matches_mapIdx h _

theorem ofPlace_inj {m n : Nat} (hm : m < 2 ^ 64) (hn : n < 2 ^ 64) (h : Key.ofPlace m = Key.ofPlace n) : m = n := by
  have hword : UInt64.ofNat m = UInt64.ofNat n := congrArg Int64.toUInt64 (Key.integer.inj h)
  have heq := congrArg UInt64.toNat hword
  rwa [UInt64.toNat_ofNat_of_lt' hm, UInt64.toNat_ofNat_of_lt' hn] at heq

/-- The keys that stand for the places up to a border. -/
def placeKeys (n : Nat) : List Key := (List.range n).map fun i => .ofPlace (i + 1)

theorem mem_placeKeys {n : Nat} {k : Key} : k ∈ placeKeys n ↔ ∃ i, 1 ≤ i ∧ i ≤ n ∧ k = .ofPlace i := by
  rw [placeKeys, List.mem_map]
  constructor
  · rintro ⟨i, hi, rfl⟩
    exact ⟨i + 1, by omega, List.mem_range.1 hi, rfl⟩
  · rintro ⟨i, h1, hi, rfl⟩
    exact ⟨i - 1, List.mem_range.2 (by omega), by rw [Nat.sub_add_cancel h1]⟩

/-- **Places are distinct keys**, up to the number of integers. -/
theorem nodup_placeKeys {n : Nat} (hn : n < 2 ^ 64) : (placeKeys n).Nodup := by
  refine List.Nodup.map_on (fun i hi j hj h => ?_) List.nodup_range
  rw [List.mem_range] at hi hj
  have := ofPlace_inj (by omega) (by omega) h
  omega

theorem length_placeKeys (n : Nat) : (placeKeys n).length = n := by
  rw [placeKeys, List.length_map, List.length_range]

theorem keys_numbered (vs : List α) : keys (numbered vs) = placeKeys vs.length := by
  rw [keys, numbered, placeKeys]
  refine List.ext_getElem? fun i => ?_
  by_cases hi : i < vs.length
  · simp [hi]
  · simp [Nat.not_lt.1 hi]

theorem map_snd_numbered (vs : List α) : (numbered vs).map Prod.snd = vs := by
  rw [numbered]
  refine List.ext_getElem? fun i => ?_
  by_cases hi : i < vs.length
  · simp [hi]
  · simp [Nat.not_lt.1 hi]

theorem snd_mem_of_mem_numbered {vs : List α} {e : Key × α} (he : e ∈ numbered vs) : e.2 ∈ vs := by
  have hmem : e.2 ∈ (numbered vs).map Prod.snd := List.mem_map_of_mem he
  rwa [map_snd_numbered] at hmem

theorem nodup_numbered {vs : List α} (hlen : vs.length < 2 ^ 63) : (keys (numbered vs)).Nodup :=
  keys_numbered vs ▸ nodup_placeKeys (by omega)

theorem borderFrom_eq [HasNil α] {es : List (Key × α)} : ∀ {fuel n : Nat},
    (∀ i, n < i → i ≤ n + fuel → holds es i = true) → borderFrom es fuel n = n + fuel
  | 0, _, _ => rfl
  | fuel + 1, n, h => by
    rw [borderFrom, if_pos (h (n + 1) (by omega) (by omega)), borderFrom_eq fun i hi hle => h i (by omega) (by omega)]
    omega

/-- **Values at the places 1, 2, … are the sequence of those entries**, if none stands for nothing. -/
theorem sequence_numbered [HasNil α] {vs : List α} (hlen : vs.length < 2 ^ 63) (hnil : ∀ v ∈ vs, HasNil.isNil v = false) :
    sequence (numbered vs) = vs := by
  have hplace : ∀ i, (hi : i < vs.length) → place? (numbered vs) (i + 1) = some vs[i] := fun i hi => by
    refine place?_eq_some_of_mem (nodup_numbered hlen) ?_ (Key.place?_eq_some.2 ⟨Nat.succ_pos i, by omega, rfl⟩)
    exact List.mem_of_getElem? (i := i) (by rw [numbered, List.getElem?_mapIdx, List.getElem?_eq_getElem hi]; rfl)
  have hborder : border (numbered vs) = vs.length := by
    rw [border, borderFrom_eq fun i hi hle => ?_, numbered, List.length_mapIdx, Nat.zero_add]
    rw [numbered, List.length_mapIdx, Nat.zero_add] at hle
    have hat := hplace (i - 1) (by omega)
    rw [Nat.sub_add_cancel hi] at hat
    rw [holds, hat, Option.any_some, hnil _ (List.getElem_mem _)]
    rfl
  have hmap : ∀ i ∈ List.range vs.length, place? (numbered vs) (i + 1) = vs[i]? := fun i hi => by
    rw [hplace i (List.mem_range.1 hi), List.getElem?_eq_getElem]
  rw [sequence, hborder, List.filterMap_congr hmap]
  clear hplace hborder hmap hlen hnil
  induction vs with
  | nil => rfl
  | cons v vs ih => simpa [List.range_succ_eq_map, List.filterMap_map, Function.comp_def] using ih

/-- **There are as many entries as places**, up to the number of integers. -/
theorem le_length_ofList_numbered {vs : List α} {n : Nat} (hn : n ≤ vs.length) (hle : n < 2 ^ 64) :
    n ≤ (ofList (numbered vs)).length := by
  have hsub : placeKeys n ⊆ keys (ofList (numbered vs)) := fun k hk => by
    rw [mem_keys_ofList, keys_numbered]
    obtain ⟨i, h1, hi, rfl⟩ := mem_placeKeys.1 hk
    exact mem_placeKeys.2 ⟨i, h1, by omega, rfl⟩
  have hlen := ((nodup_placeKeys hle).subperm hsub).length_le
  rwa [length_placeKeys, length_keys] at hlen

end

end Entries
end Interchange
