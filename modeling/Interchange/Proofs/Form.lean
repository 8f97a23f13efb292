import Interchange.Table.Shape
import Mathlib.Algebra.Group.Nat.Defs
import Mathlib.Data.List.Forall2
import Mathlib.Data.List.Nodup
/-!
# Form — what the form of entries depends on

The form of entries depends on their keys and on which values stand for nothing.  Entries with the same keys and values
that agree on that therefore have forms with values at the same places (`form_matches`).  A sequence has no value that
stands for nothing, and every value of its entries.
-/
namespace Interchange
namespace Entries

variable {α β : Type}

/-- **Entries with the same keys in the same order**, and related values. -/
def Matches (R : α → β → Prop) (es : List (Key × α)) (fs : List (Key × β)) : Prop :=
  List.Forall₂ (fun e f => e.1 = f.1 ∧ R e.2 f.2) es fs

theorem Matches.imp {R S : α → β → Prop} {es : List (Key × α)} {fs : List (Key × β)} (h : Matches R es fs)
    (hRS : ∀ e ∈ es, ∀ b, R e.2 b → S e.2 b) : Matches S es fs := by
  induction h with
  | nil => exact .nil
  | cons he _ ih =>
    exact .cons ⟨he.1, hRS _ List.mem_cons_self _ he.2⟩ (ih fun e hm => hRS e (List.mem_cons_of_mem _ hm))

theorem Matches.exists_mem {R : α → β → Prop} {es : List (Key × α)} {fs : List (Key × β)} (h : Matches R es fs)
    {e : Key × α} (he : e ∈ es) : ∃ b, (e.1, b) ∈ fs ∧ R e.2 b := by
  induction h with
  | nil => cases he
  | @cons a f _ _ hef _ ih =>
    rcases List.mem_cons.1 he with rfl | he
    · exact ⟨f.2, by rw [hef.1]; exact List.mem_cons_self, hef.2⟩
    · obtain ⟨b, hb, hr⟩ := ih he
      exact ⟨b, List.mem_cons_of_mem _ hb, hr⟩

theorem Matches.exists_mem_right {R : α → β → Prop} {es : List (Key × α)} {fs : List (Key × β)} (h : Matches R es fs)
    {f : Key × β} (hf : f ∈ fs) : ∃ a, (f.1, a) ∈ es ∧ R a f.2 := by
  induction h with
  | nil => cases hf
  | @cons e _ _ _ hef _ ih =>
    rcases List.mem_cons.1 hf with rfl | hf
    · exact ⟨e.2, by rw [← hef.1]; exact List.mem_cons_self, hef.2⟩
    · obtain ⟨a, ha, hr⟩ := ih hf
      exact ⟨a, List.mem_cons_of_mem _ ha, hr⟩

theorem Matches.exists_of_forall {R : α → β → Prop} : ∀ {es : List (Key × α)}, (∀ e ∈ es, ∃ b, R e.2 b) →
    ∃ fs, Matches R es fs
  | [], _ => ⟨[], .nil⟩
  | e :: es, h => by
    obtain ⟨b, hb⟩ := h e List.mem_cons_self
    obtain ⟨fs, hfs⟩ := Matches.exists_of_forall fun e he => h e (List.mem_cons_of_mem _ he)
    exact ⟨(e.1, b) :: fs, .cons ⟨rfl, hb⟩ hfs⟩

theorem matches_map {R : α → β → Prop} {f : α → β} :
    ∀ {es : List (Key × α)}, (∀ e ∈ es, R e.2 (f e.2)) → Matches R es (es.map fun e => (e.1, f e.2))
  | [], _ => .nil
  | _ :: _, h => .cons ⟨rfl, h _ List.mem_cons_self⟩ (matches_map fun e he => h e (List.mem_cons_of_mem _ he))

/-! ## Places -/

theorem place?_matches {R : α → β → Prop} {es : List (Key × α)} {fs : List (Key × β)} (h : Matches R es fs) (n : Nat) :
    Option.Rel R (place? es n) (place? fs n) := by
  unfold place?
  induction h with
  | nil => exact .none
  | @cons e f _ _ hef _ ih =>
    rw [List.find?_cons, List.find?_cons, hef.1]
    cases f.1.place? == some n
    · exact ih
    · exact .some hef.2

theorem filterMap_forall₂ {γ : Type} {R : α → β → Prop} {f : γ → Option α} {g : γ → Option β}
    (h : ∀ c, Option.Rel R (f c) (g c)) : ∀ cs : List γ, List.Forall₂ R (cs.filterMap f) (cs.filterMap g)
  | [] => .nil
  | c :: cs => by
    have hc := h c
    have ih := filterMap_forall₂ h cs
    rw [List.filterMap_cons, List.filterMap_cons]
    revert hc
    cases f c <;> cases g c <;> intro hc
    · exact ih
    · cases hc
    · cases hc
    · cases hc with
      | some hab => exact .cons hab ih

variable [HasNil α] [HasNil β]

theorem holds_matches {R : α → β → Prop} (hR : ∀ a b, R a b → HasNil.isNil a = HasNil.isNil b)
    {es : List (Key × α)} {fs : List (Key × β)} (h : Matches R es fs) (n : Nat) : holds es n = holds fs n := by
  unfold holds
  have hp := place?_matches h n
  revert hp
  cases place? es n <;> cases place? fs n <;> intro hp
  · rfl
  · cases hp
  · cases hp
  · cases hp with
    | some hab => rw [Option.any_some, Option.any_some, hR _ _ hab]

theorem border_matches {R : α → β → Prop} (hR : ∀ a b, R a b → HasNil.isNil a = HasNil.isNil b)
    {es : List (Key × α)} {fs : List (Key × β)} (h : Matches R es fs) : border es = border fs := by
  have hfrom : ∀ fuel n, borderFrom es fuel n = borderFrom fs fuel n := by
    intro fuel
    induction fuel with
    | zero => intro n; rfl
    | succ fuel ih => intro n; rw [borderFrom, borderFrom, holds_matches hR h, ih]
  rw [border, border, hfrom, List.Forall₂.length_eq h]

theorem sequence_matches {R : α → β → Prop} (hR : ∀ a b, R a b → HasNil.isNil a = HasNil.isNil b)
    {es : List (Key × α)} {fs : List (Key × β)} (h : Matches R es fs) : List.Forall₂ R (sequence es) (sequence fs) := by
  rw [sequence, sequence, border_matches hR h]
  exact filterMap_forall₂ (fun i => place?_matches h (i + 1)) _

/-- **Forms of the same kind** with related values. -/
inductive FormMatches (R : α → β → Prop) : Form α → Form β → Prop where
  | sequence {items : List α} {items' : List β} (h : List.Forall₂ R items items') :
    FormMatches R (.sequence items) (.sequence items')
  | mapping {es : List (Key × α)} {fs : List (Key × β)} (h : Matches R es fs) :
    FormMatches R (.mapping es) (.mapping fs)

/-- **Matching entries have matching forms**, if related values agree on standing for nothing. -/
theorem form_matches {R : α → β → Prop} (hR : ∀ a b, R a b → HasNil.isNil a = HasNil.isNil b)
    {es : List (Key × α)} {fs : List (Key × β)} (h : Matches R es fs) : FormMatches R (form es) (form fs) := by
  have hall : (es.all fun e => e.1.isDense (border es)) = fs.all fun f => f.1.isDense (border fs) := by
    rw [border_matches hR h]
    generalize border fs = b
    induction h with
    | nil => rfl
    | cons hef _ ih => rw [List.all_cons, List.all_cons, ih, hef.1]
  unfold form
  rw [hall]
  split
  · exact .sequence (sequence_matches hR h)
  · exact .mapping h

end Entries

/-! ## Maps -/

/-- A form with its values changed. -/
def Form.map {α β : Type} (f : α → β) : Form α → Form β
  | sequence items => sequence (items.map f)
  | mapping es => mapping (es.map fun e => (e.1, f e.2))

namespace Entries

variable {α β : Type}

theorem eq_map_of_forall₂ {f : α → β} {as : List α} {bs : List β} (h : List.Forall₂ (fun a b => b = f a) as bs) :
    bs = as.map f := by
  induction h with
  | nil => rfl
  | cons hab _ ih => rw [List.map_cons, ih, hab]

theorem eq_map_of_matches {f : α → β} {es : List (Key × α)} {fs : List (Key × β)}
    (h : Matches (fun a b => b = f a) es fs) : fs = es.map fun e => (e.1, f e.2) := by
  induction h with
  | nil => rfl
  | cons hef _ ih => rw [List.map_cons, ← ih, hef.1, ← hef.2]

variable [HasNil α] [HasNil β]

/-- **Changing values keeps the form**, if what stands for nothing stays so. -/
theorem form_map (f : α → β) (hf : ∀ a, HasNil.isNil (f a) = HasNil.isNil a) (es : List (Key × α)) :
    form (es.map fun e => (e.1, f e.2)) = (form es).map f := by
  have hmap : Matches (fun a b => b = f a) es (es.map fun e => (e.1, f e.2)) := matches_map fun _ _ => rfl
  have hform := form_matches (fun a b hab => by rw [hab, hf]) hmap
  revert hform
  generalize form (es.map fun e => (e.1, f e.2)) = F
  generalize form es = G
  intro hform
  cases hform with
  | sequence h => rw [eq_map_of_forall₂ h]; rfl
  | mapping h => rw [eq_map_of_matches h]; rfl

end Entries

/-! ## Sequences -/

namespace Entries

variable {α : Type} [HasNil α]

theorem holds_of_le_borderFrom {es : List (Key × α)} : ∀ {fuel n i : Nat}, n < i → i ≤ borderFrom es fuel n →
    holds es i = true
  | 0, n, i, hn, hi => by rw [borderFrom] at hi; omega
  | fuel + 1, n, i, hn, hi => by
    rw [borderFrom] at hi
    split at hi
    · rename_i hh
      by_cases hin : i = n + 1
      · rw [hin]; exact hh
      · exact holds_of_le_borderFrom (by omega) hi
    · omega

theorem exists_place?_of_le_border {es : List (Key × α)} {i : Nat} (h0 : 0 < i) (hi : i ≤ border es) :
    ∃ v, place? es i = some v ∧ HasNil.isNil v = false := by
  have hh := holds_of_le_borderFrom h0 hi
  unfold holds at hh
  obtain ⟨v, hv, hn⟩ := (Option.any_eq_true _ _).1 hh
  exact ⟨v, hv, by simpa using hn⟩

theorem form_eq_sequence {es : List (Key × α)} {items : List α} (h : form es = .sequence items) :
    items = sequence es ∧ ∀ e ∈ es, e.1.isDense (border es) = true := by
  unfold form at h
  split at h
  · rename_i hall
    injection h with h
    exact ⟨h.symm, List.all_eq_true.1 hall⟩
  · cases h

theorem form_eq_mapping {es fs : List (Key × α)} (h : form es = .mapping fs) : fs = es := by
  unfold form at h
  split at h
  · cases h
  · injection h with h
    exact h.symm

/-- **No item of a sequence stands for nothing.** -/
theorem isNil_of_mem_sequence {es : List (Key × α)} {v : α} (hv : v ∈ sequence es) : HasNil.isNil v = false := by
  obtain ⟨i, hi, hp⟩ := List.mem_filterMap.1 hv
  obtain ⟨w, hw, hn⟩ := exists_place?_of_le_border (Nat.succ_pos i) (List.mem_range.1 hi)
  rw [hw] at hp
  injection hp with hp
  rw [← hp]; exact hn

theorem mem_of_mem_sequence {es : List (Key × α)} {v : α} (hv : v ∈ sequence es) : ∃ k, (k, v) ∈ es := by
  obtain ⟨i, -, hp⟩ := List.mem_filterMap.1 hv
  obtain ⟨e, he, rfl⟩ := Option.map_eq_some_iff.1 hp
  exact ⟨e.1, List.mem_of_find?_eq_some he⟩

end Entries

namespace Key

/-- **The integer of a place is the only key there.** -/
theorem place?_eq_some {k : Key} {n : Nat} : k.place? = some n ↔ 0 < n ∧ n < 2 ^ 63 ∧ k = .ofPlace n := by
  constructor
  · intro h
    cases k with
    | integer i =>
      simp only [place?, Option.ite_none_right_eq_some, Option.some.injEq] at h
      have hlt := Int64.toInt_lt i
      have hi : (n : Int) = i.toInt := by omega
      refine ⟨by omega, by omega, congrArg integer (Int64.toInt_inj.1 ?_)⟩
      rw [Int64.toInt_ofNat_of_lt (by omega), hi]
    | _ => cases h
  · rintro ⟨h0, hn, rfl⟩
    simp only [ofPlace, place?, Int64.toInt_ofNat_of_lt hn]
    rw [if_pos (by omega), Int.toNat_natCast]

theorem eq_of_place?_eq {k k' : Key} {n : Nat} (h : k.place? = some n) (h' : k'.place? = some n) : k = k' :=
  (place?_eq_some.1 h).2.2.trans (place?_eq_some.1 h').2.2.symm

end Key

namespace Entries

variable {α : Type}

theorem place?_eq_some_of_mem {es : List (Key × α)} (hnd : (keys es).Nodup) {k : Key} {v : α} {n : Nat}
    (hm : (k, v) ∈ es) (hk : k.place? = some n) : place? es n = some v := by
  unfold place?
  induction es with
  | nil => cases hm
  | cons e es ih =>
    rw [keys, List.map_cons, List.nodup_cons] at hnd
    rw [List.find?_cons]
    rcases List.mem_cons.1 hm with rfl | hm
    · simp [hk]
    · cases he : e.1.place? == some n
      · exact ih hnd.2 hm
      · have hek : e.1 = k := Key.eq_of_place?_eq (beq_iff_eq.1 he) hk
        exact absurd (List.mem_map.2 ⟨(k, v), hm, hek.symm⟩) hnd.1

theorem place_le_of_place? {es : List (Key × α)} {n : Nat} {v : α} (h : place? es n = some v) : n < 2 ^ 63 := by
  obtain ⟨e, he, -⟩ := Option.map_eq_some_iff.1 h
  have hn := List.find?_some he
  exact (Key.place?_eq_some.1 (beq_iff_eq.1 hn)).2.1

variable [HasNil α]

/-- **Every value of the entries of a sequence is an item.** -/
theorem mem_sequence {es : List (Key × α)} (hnd : (keys es).Nodup) {items : List α} (hf : form es = .sequence items)
    {k : Key} {v : α} (hm : (k, v) ∈ es) : v ∈ items := by
  obtain ⟨rfl, hdense⟩ := form_eq_sequence hf
  have hk : (k.place?.any (· ≤ border es)) = true := hdense _ hm
  obtain ⟨n, hn, hle⟩ := (Option.any_eq_true _ _).1 hk
  have hpos : 0 < n := (Key.place?_eq_some.1 hn).1
  refine List.mem_filterMap.2 ⟨n - 1, List.mem_range.2 (by have := of_decide_eq_true hle; omega), ?_⟩
  rw [Nat.sub_add_cancel hpos]
  exact place?_eq_some_of_mem hnd hm hn

/-- **A sequence has an item for every place up to its border**, fewer than the positive integers of 64 bits. -/
theorem length_sequence {es : List (Key × α)} : (sequence es).length = border es ∧ border es < 2 ^ 63 := by
  have hsome : ∀ i, i < border es → ∃ v, place? es (i + 1) = some v := fun i hi =>
    let ⟨v, hv, _⟩ := exists_place?_of_le_border (Nat.succ_pos i) hi
    ⟨v, hv⟩
  constructor
  · unfold sequence
    have hlen : ∀ n, n ≤ border es → ((List.range n).filterMap fun i => place? es (i + 1)).length = n := by
      intro n
      induction n with
      | zero => intro _; rfl
      | succ n ih =>
        intro hn
        obtain ⟨v, hv⟩ := hsome n hn
        rw [List.range_succ, List.filterMap_append, List.length_append, ih (by omega)]
        simp [hv]
    exact hlen _ (Nat.le_refl _)
  · by_cases hb : border es = 0
    · omega
    · obtain ⟨v, hv⟩ := hsome (border es - 1) (by omega)
      have := place_le_of_place? hv
      omega

end Entries
end Interchange
