import Interchange.Proofs.Unfolding
import Mathlib.Data.List.Lex
/-!
# Traversal — the first fault of a depth-first walk

A walk goes through the stops of a table in their order.  A stop may be a fault, or a table that is walked through before
the next stop; a table that is open already is a fault itself.  The faults that can be met have positions, and their order
is that of the walk.  A search that keeps the open tables finds the first of them or, if there is none, nothing
(`search_eq_some_iff`, `search_eq_none_iff`); there is none exactly when no cycle and no fault is reached
(`forall_not_meets_iff`).
-/
namespace Interchange

/-- A stop of a walk: a fault, a table to walk through, or neither. -/
inductive Stop (ε : Type) where
  | pass
  | fault (e : ε)
  | visit (id : TableId)

/-- A stop at which something is asked for, and a fault if it is not there. -/
def Stop.check {ε : Type} (b : Bool) (e : ε) : Stop ε := if b then .pass else .fault e

namespace Traversal

variable {ε : Type} (stops : TableId → List (Stop ε)) (cycle : ε)

/-- **A fault of a walk through a table** under open ones, at its position: the places of the stops that lead to it. -/
inductive Meets : List TableId → TableId → List Nat → ε → Prop where
  | cycle {opened : List TableId} {id : TableId} (h : id ∈ opened) : Meets opened id [] cycle
  | fault {opened : List TableId} {id : TableId} {i : Nat} {e : ε} (h : (stops id)[i]? = some (.fault e)) :
    Meets opened id [i] e
  | inside {opened : List TableId} {id b : TableId} {i : Nat} {p : List Nat} {e : ε}
    (h : (stops id)[i]? = some (.visit b)) (hb : Meets (id :: opened) b p e) : Meets opened id (i :: p) e

/-- **The first fault of a walk**: none is met before it.  Positions are ordered lexicographically, so stops go by their
order and what is inside a table goes before the stops behind it. -/
def First (root : TableId) (e : ε) : Prop :=
  ∃ p, Meets stops cycle [] root p e ∧ ∀ q f, Meets stops cycle [] root q f → ¬ q < p

/-- A table that is walked through inside another. -/
def Visits (a b : TableId) : Prop := .visit b ∈ stops a

/-- What a search comes to at a stop, given how tables are searched. -/
def answer (table : TableId → Option ε) : Stop ε → Option ε
  | .pass => none
  | .fault e => some e
  | .visit id => table id

theorem answer_check (table : TableId → Option ε) (b : Bool) (e : ε) :
    answer table (.check b e) = if b then none else some e := by
  cases b <;> rfl

theorem findSome?_cons_or {α β : Type} (f : α → Option β) (a : α) (as : List α) :
    (a :: as).findSome? f = (f a).or (as.findSome? f) := by
  rw [List.findSome?_cons]
  cases f a <;> rfl

/-- A search under open tables, where at most `room` more can be opened; `stuck` is the answer for one beyond. -/
def search (stuck : ε) : (room : Nat) → List TableId → TableId → Option ε
  | 0, _, _ => some stuck
  | room + 1, opened, id =>
    if id ∈ opened then some cycle else (stops id).findSome? (answer (search stuck room (id :: opened)))

variable {stops cycle}

/-- **There is one fault at a position.** -/
theorem Meets.unique {opened : List TableId} {id : TableId} {p : List Nat} {e f : ε}
    (he : Meets stops cycle opened id p e) : Meets stops cycle opened id p f → e = f := by
  induction he with
  | cycle h =>
    intro hf
    cases hf
    rfl
  | fault h =>
    intro hf
    cases hf with
    | fault h' => rw [h] at h'; cases h'; rfl
    | inside h' _ => rw [h] at h'; cases h'
  | inside h _ ih =>
    intro hf
    cases hf with
    | fault h' => rw [h] at h'; cases h'
    | inside h' hb => rw [h] at h'; cases h'; exact ih hb

theorem First.unique {root : TableId} {e f : ε} (he : First stops cycle root e) (hf : First stops cycle root f) :
    e = f := by
  obtain ⟨p, hp, hpmin⟩ := he
  obtain ⟨q, hq, hqmin⟩ := hf
  obtain rfl : p = q := le_antisymm (not_lt.1 (hpmin q f hq)) (not_lt.1 (hqmin p e hp))
  exact hp.unique hq

/-! ## What a search finds -/

section

variable {size : Nat} {stuck : ε} {h : Heap}

/-- **A search finds the first fault**, if there is room for as many tables as are not open.  Open tables are distinct and
lead on, so each is one of the heap. -/
theorem search_spec (hheap : ∀ a b, Visits stops a b → a.index < h.size) : ∀ {room : Nat} {opened : List TableId}
    {id : TableId}, opened.Nodup → (∀ a ∈ opened, a.index < h.size) → h.size < opened.length + room →
      (search stops cycle stuck room opened id = none → ∀ p e, ¬ Meets stops cycle opened id p e) ∧
        ∀ e, search stops cycle stuck room opened id = some e →
          ∃ p, Meets stops cycle opened id p e ∧ ∀ q f, Meets stops cycle opened id q f → ¬ q < p
  | 0, opened, id, hnd, hin, hr => by have := Heap.length_le_size hnd hin; omega
  | room + 1, opened, id, hnd, hin, hr => by
    rw [search]
    by_cases hid : id ∈ opened
    · rw [if_pos hid]
      refine ⟨nofun, fun e he => ?_⟩
      cases he
      exact ⟨[], .cycle hid, fun q f _ => List.not_lt_nil q⟩
    have ih : ∀ {b}, Visits stops id b →
        (search stops cycle stuck room (id :: opened) b = none → ∀ p e, ¬ Meets stops cycle (id :: opened) b p e) ∧
          ∀ e, search stops cycle stuck room (id :: opened) b = some e → ∃ p, Meets stops cycle (id :: opened) b p e ∧
            ∀ q f, Meets stops cycle (id :: opened) b q f → ¬ q < p := fun {b} hb => by
      refine search_spec hheap (List.nodup_cons.2 ⟨hid, hnd⟩) (fun a ha => ?_) (by simp only [List.length_cons]; omega)
      rcases List.mem_cons.1 ha with rfl | ha
      · exact hheap _ _ hb
      · exact hin a ha
    -- a fault at or inside a stop makes the answer at that stop
    have hanswer : ∀ {i q f s}, (stops id)[i]? = some s → Meets stops cycle opened id (i :: q) f →
        answer (search stops cycle stuck room (id :: opened)) s ≠ none := fun {i q f s} hs hm hnone => by
      cases hm with
      | fault hf => rw [hs] at hf; cases hf; cases hnone
      | inside hv hb => rw [hs] at hv; cases hv; exact (ih (List.mem_of_getElem? hs)).1 hnone _ _ hb
    rw [if_neg hid]
    refine ⟨fun hnone p e hm => ?_, fun e he => ?_⟩
    · rw [List.findSome?_eq_none_iff] at hnone
      cases hm with
      | cycle hm => exact hid hm
      | fault hf => cases hnone _ (List.mem_of_getElem? hf)
      | inside hv hb => exact (ih (List.mem_of_getElem? hv)).1 (hnone _ (List.mem_of_getElem? hv)) _ _ hb
    · obtain ⟨before, s, after, hsplit, hs, hbefore⟩ := List.findSome?_eq_some_iff.1 he
      have hat : (stops id)[before.length]? = some s := by rw [hsplit]; simp
      have hprior : ∀ {i q f}, i < before.length → ¬ Meets stops cycle opened id (i :: q) f := fun {i q f} hi hm => by
        have hget : (stops id)[i]? = some before[i] := by
          rw [hsplit, List.getElem?_append_left hi, List.getElem?_eq_getElem hi]
        exact hanswer hget hm (hbefore _ (List.getElem_mem hi))
      cases s with
      | pass => cases hs
      | fault x =>
        cases hs
        refine ⟨[before.length], .fault hat, fun q f hm hlt => ?_⟩
        cases hm with
        | cycle hm => exact hid hm
        | fault hf =>
          rcases List.cons_lt_cons_iff.1 hlt with hi | ⟨-, hlt⟩
          · exact hprior hi (.fault hf)
          · exact List.not_lt_nil _ hlt
        | inside hv hb =>
          rcases List.cons_lt_cons_iff.1 hlt with hi | ⟨-, hlt⟩
          · exact hprior hi (.inside hv hb)
          · exact List.not_lt_nil _ hlt
      | visit b =>
        obtain ⟨p, hp, hmin⟩ := (ih (List.mem_of_getElem? hat)).2 e hs
        refine ⟨before.length :: p, .inside hat hp, fun q f hm hlt => ?_⟩
        cases hm with
        | cycle hm => exact hid hm
        | fault hf =>
          rcases List.cons_lt_cons_iff.1 hlt with hi | ⟨hi, -⟩
          · exact hprior hi (.fault hf)
          · rw [hi, hat] at hf; cases hf
        | inside hv hb =>
          rcases List.cons_lt_cons_iff.1 hlt with hi | ⟨hi, hlt⟩
          · exact hprior hi (.inside hv hb)
          · rw [hi, hat] at hv; cases hv; exact hmin _ _ hb hlt

variable {root : TableId}

theorem search_root (hheap : ∀ a b, Visits stops a b → a.index < h.size) {room : Nat} (hr : h.size < room) :
    (search stops cycle stuck room [] root = none → ∀ p e, ¬ Meets stops cycle [] root p e) ∧
      ∀ e, search stops cycle stuck room [] root = some e → First stops cycle root e :=
  search_spec hheap .nil (fun _ ha => nomatch ha) (Nat.lt_of_lt_of_le hr (Nat.le_add_left room 0))

theorem search_eq_none_iff (hheap : ∀ a b, Visits stops a b → a.index < h.size) {room : Nat} (hr : h.size < room) :
    search stops cycle stuck room [] root = none ↔ ∀ p e, ¬ Meets stops cycle [] root p e := by
  refine ⟨(search_root hheap hr).1, fun hnot => Option.eq_none_iff_forall_ne_some.2 fun e he => ?_⟩
  obtain ⟨p, hp, -⟩ := (search_root hheap hr).2 e he
  exact hnot p e hp

theorem search_eq_some_iff (hheap : ∀ a b, Visits stops a b → a.index < h.size) {room : Nat} (hr : h.size < room)
    {e : ε} : search stops cycle stuck room [] root = some e ↔ First stops cycle root e := by
  refine ⟨(search_root hheap hr).2 e, fun he => ?_⟩
  cases hs : search stops cycle stuck room [] root with
  | none =>
    obtain ⟨p, hp, -⟩ := he
    exact absurd hp ((search_root hheap hr).1 hs p e)
  | some f => rw [First.unique he ((search_root hheap hr).2 f hs)]

end

/-! ## What is met -/

section

variable {root : TableId}

/-- **What is met is a cycle or a fault in reach**: open tables lead to the one that is walked through. -/
theorem Meets.exists_reached {opened : List TableId} {id : TableId} {p : List Nat} {e : ε}
    (hm : Meets stops cycle opened id p e) : (∀ a ∈ opened, Relation.TransGen (Visits stops) a id) →
      ∃ a, Relation.ReflTransGen (Visits stops) id a ∧
        (e = cycle ∧ Relation.TransGen (Visits stops) a a ∨ .fault e ∈ stops a) := by
  induction hm with
  | cycle h => exact fun hlead => ⟨_, .refl, .inl ⟨rfl, hlead _ h⟩⟩
  | fault h => exact fun _ => ⟨_, .refl, .inr (List.mem_of_getElem? h)⟩
  | @inside opened id b i p e h _ ih =>
    intro hlead
    have hb : Visits stops id b := List.mem_of_getElem? h
    obtain ⟨a, hr, ha⟩ := ih fun a ha => by
      rcases List.mem_cons.1 ha with rfl | ha
      · exact .single hb
      · exact (hlead a ha).tail hb
    exact ⟨a, hr.head hb, ha⟩

theorem Meets.of_visits {opened : List TableId} {id b : TableId} (hb : Visits stops id b) {p : List Nat} {e : ε}
    (hm : Meets stops cycle (id :: opened) b p e) : ∃ i, Meets stops cycle opened id (i :: p) e := by
  obtain ⟨i, hi⟩ := List.mem_iff_getElem?.1 hb
  exact ⟨i, .inside hi hm⟩

theorem exists_meets_of_opened {a b : TableId} (hab : Relation.ReflTransGen (Visits stops) a b) :
    ∀ {opened : List TableId}, b ∈ opened → ∃ p e, Meets stops cycle opened a p e := by
  induction hab using Relation.ReflTransGen.head_induction_on with
  | refl => exact fun hb => ⟨[], cycle, .cycle hb⟩
  | head hac _ ih =>
    intro opened hb
    obtain ⟨p, e, hm⟩ := ih (List.mem_cons_of_mem _ hb)
    obtain ⟨i, hm⟩ := hm.of_visits hac
    exact ⟨i :: p, e, hm⟩

theorem exists_meets_of_reached {a b : TableId} (hab : Relation.ReflTransGen (Visits stops) a b)
    (hb : ∀ opened, ∃ p e, Meets stops cycle opened b p e) : ∀ opened, ∃ p e, Meets stops cycle opened a p e := by
  induction hab using Relation.ReflTransGen.head_induction_on with
  | refl => exact hb
  | head hac _ ih =>
    intro opened
    obtain ⟨p, e, hm⟩ := ih (_ :: opened)
    obtain ⟨i, hm⟩ := hm.of_visits hac
    exact ⟨i :: p, e, hm⟩

/-- **Nothing is met exactly when no cycle and no fault is in reach.** -/
theorem forall_not_meets_iff : (∀ p e, ¬ Meets stops cycle [] root p e) ↔
    ∀ a, Relation.ReflTransGen (Visits stops) root a →
      ¬ Relation.TransGen (Visits stops) a a ∧ ∀ e, .fault e ∉ stops a := by
  constructor
  · intro hnot a hr
    have hcontra : ¬ ∀ opened, ∃ p e, Meets stops cycle opened a p e := fun ha => by
      obtain ⟨p, e, hm⟩ := exists_meets_of_reached hr ha []
      exact hnot p e hm
    refine ⟨fun hcyc => hcontra fun opened => ?_, fun e he => hcontra fun opened => ?_⟩
    · obtain ⟨b, hab, hba⟩ := Relation.TransGen.head'_iff.1 hcyc
      obtain ⟨p, e, hm⟩ : ∃ p e, Meets stops cycle (a :: opened) b p e :=
        exists_meets_of_opened hba List.mem_cons_self
      obtain ⟨i, hm⟩ := hm.of_visits hab
      exact ⟨i :: p, e, hm⟩
    · obtain ⟨i, hi⟩ := List.mem_iff_getElem?.1 he
      exact ⟨[i], e, .fault hi⟩
  · intro hall p e hm
    obtain ⟨a, hr, ⟨-, hc⟩ | hf⟩ := hm.exists_reached fun _ ha => nomatch ha
    · exact (hall a hr).1 hc
    · exact (hall a hr).2 e hf

end

end Traversal
end Interchange
