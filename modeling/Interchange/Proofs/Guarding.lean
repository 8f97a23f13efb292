import Interchange.Proofs.Encoding
import Mathlib.Data.Finset.Card
/-!
# Guarding — the tables open in a run of steps

A guard forgets a table by its identity, wherever that stands among the identities it holds.  Closing the innermost scope
gives back the guard before that scope was opened because no table is ever open twice: a step keeps that
(`Walk.IsScoped.step`), and so does a run (`Walk.IsScoped.steps`).  So at every point of a run the open scopes say what the
guard holds, what it answers, and what it goes back to (`Guard.steps_new`).
-/
namespace Interchange
namespace Guard

/-- The tables that a guard holds, as a set. -/
def openTables (g : Guard) : Finset TableId := g.visiting.toFinset

theorem mem_openTables {g : Guard} {id : TableId} : id ∈ g.openTables ↔ id ∈ g.visiting := List.mem_toFinset

theorem card_openTables {g : Guard} (hg : g.visiting.Nodup) : g.openTables.card = g.depth := List.toFinset_card_of_nodup hg

theorem openTables_leave {g : Guard} (hg : g.visiting.Nodup) (id : TableId) :
    (g.leave id).openTables = g.openTables.erase id := by
  -- the identity is taken away where it stands, and it stands nowhere else
  ext a
  simp only [mem_openTables, Finset.mem_erase, leave]
  exact hg.mem_erase_iff

theorem enter_eq_cyclic_iff {g : Guard} {id : TableId} : g.enter id = .error .cyclicStructure ↔ id ∈ g.visiting := by
  by_cases hid : id ∈ g.visiting
  · simp [enter, hid]
  · cases hreached : g.reached? <;> simp [enter, hid, hreached]

theorem enter_eq_limit_iff {g : Guard} {id : TableId} {n : Nat} :
    g.enter id = .error (.depthLimitExceeded n) ↔ id ∉ g.visiting ∧ g.maxDepth = some n ∧ n ≤ g.depth := by
  have hsome : g.reached? = some n ↔ g.maxDepth = some n ∧ n ≤ g.depth := by
    simp [reached?, Option.filter_eq_some_iff]
  by_cases hid : id ∈ g.visiting
  · simp [enter, hid]
  · rw [← hsome]
    cases hreached : g.reached? <;> simp [enter, hid, hreached]

namespace Walk

variable {limit : Option Nat} {w : Walk}

/-- **A walk whose guard holds its open scopes**, none of them twice, and no more than the limit allows. -/
structure IsScoped (limit : Option Nat) (w : Walk) : Prop where
  maxDepth : w.guard.maxDepth = limit
  visiting : w.guard.visiting = w.scopes
  nodup : w.scopes.Nodup
  length_le : ∀ n ∈ limit, w.scopes.length ≤ n

theorem isScoped_new (limit : Option Nat) : IsScoped limit ⟨new limit, []⟩ := ⟨rfl, rfl, .nil, fun n _ => Nat.zero_le n⟩

theorem IsScoped.eq_mk (hw : w.IsScoped limit) : w = ⟨⟨w.scopes, limit⟩, w.scopes⟩ := by
  obtain ⟨⟨visiting, maxDepth⟩, scopes⟩ := w
  have hvisiting : visiting = scopes := hw.visiting
  have hlimit : maxDepth = limit := hw.maxDepth
  rw [hvisiting, hlimit]

theorem IsScoped.depth_eq (hw : w.IsScoped limit) : w.guard.depth = w.scopes.length := by rw [depth, hw.visiting]

theorem step_enter_error {id : TableId} {e : Error} (he : w.guard.enter id = .error e) :
    w.step (.enter id) = (w, [.refused e]) := by rw [step, he]

theorem step_enter_ok {id : TableId} {g : Guard} (hg : w.guard.enter id = .ok g) :
    w.step (.enter id) = (⟨g, id :: w.scopes⟩, [.entered g.depth]) := by rw [step, hg]

theorem IsScoped.enter (hw : w.IsScoped limit) {id : TableId} {g : Guard} (hg : w.guard.enter id = .ok g) :
    IsScoped limit ⟨g, id :: w.scopes⟩ := by
  obtain ⟨hid, hreached, rfl⟩ := enter_eq_ok.1 hg
  refine ⟨hw.maxDepth, congrArg (id :: ·) hw.visiting, List.nodup_cons.2 ⟨hw.visiting ▸ hid, hw.nodup⟩, fun n hn => ?_⟩
  have hlt := reached?_eq_none_iff.1 hreached n (hw.maxDepth ▸ hn)
  rwa [hw.depth_eq] at hlt

/-- **Closing the innermost scope leaves the scopes under it**, the guard as it was when they were open alone. -/
theorem IsScoped.leave {g : Guard} {id : TableId} {scopes : List TableId} (hw : IsScoped limit ⟨g, id :: scopes⟩) :
    IsScoped limit ⟨g.leave id, scopes⟩ where
  maxDepth := hw.maxDepth
  visiting := by
    have hvisiting : g.visiting = id :: scopes := hw.visiting
    simp [Guard.leave, hvisiting]
  nodup := (List.nodup_cons.1 hw.nodup).2
  length_le n hn := Nat.le_of_succ_le (hw.length_le n hn)

theorem IsScoped.step_leave {g : Guard} {id : TableId} {scopes : List TableId} (hw : IsScoped limit ⟨g, id :: scopes⟩) :
    Walk.step ⟨g, id :: scopes⟩ .leave = (⟨⟨scopes, limit⟩, scopes⟩, [.left scopes.length]) := by
  have hleave : (⟨g.leave id, scopes⟩ : Walk) = ⟨⟨scopes, limit⟩, scopes⟩ := hw.leave.eq_mk
  have hguard : g.leave id = ⟨scopes, limit⟩ := congrArg Walk.guard hleave
  simp only [Walk.step, hguard, depth]

/-- **A step keeps a walk scoped.** -/
theorem IsScoped.step (hw : w.IsScoped limit) (s : Step) : (w.step s).1.IsScoped limit := by
  cases s with
  | enter id =>
    cases hg : w.guard.enter id with
    | error e => rwa [step_enter_error hg]
    | ok g =>
      rw [step_enter_ok hg]
      exact hw.enter hg
  | leave =>
    obtain ⟨g, scopes⟩ := w
    cases scopes with
    | nil => exact hw
    | cons id scopes => exact hw.leave

theorem steps_cons (w : Walk) (s : Step) (ss : List Step) :
    w.steps (s :: ss) = (((w.step s).1.steps ss).1, (w.step s).2 ++ ((w.step s).1.steps ss).2) := rfl

theorem IsScoped.steps (hw : w.IsScoped limit) (ss : List Step) : (w.steps ss).1.IsScoped limit := by
  induction ss generalizing w with
  | nil => exact hw
  | cons s ss ih =>
    rw [steps_cons]
    exact ih (hw.step s)

/-- **Closing all scopes** goes back to a new guard, the depths counting down to none. -/
theorem IsScoped.steps_leave (hw : w.IsScoped limit) : w.steps (List.replicate w.scopes.length .leave) =
    (⟨new limit, []⟩, (List.range w.scopes.length).reverse.map .left) := by
  rw [hw.eq_mk]
  replace hw := hw.eq_mk ▸ hw
  generalize w.scopes = scopes at hw ⊢
  induction scopes with
  | nil => rfl
  | cons id scopes ih =>
    have hw' := hw.step .leave
    rw [hw.step_leave] at hw'
    rw [List.length_cons, List.replicate_succ, steps_cons, hw.step_leave, ih hw', List.range_succ, List.reverse_append]
    rfl

/-- **How a table is entered at a point of a run.**  It is refused as a cycle exactly when it is open, whatever the limit, and
else for the limit exactly when that is reached; a refusal changes nothing.  Otherwise it is one more open scope, and once
that is the innermost one again, closing it gives the walk before. -/
structure Enters (limit : Option Nat) (w : Walk) (id : TableId) : Prop where
  cyclic : w.guard.enter id = .error .cyclicStructure ↔ id ∈ w.scopes
  limited : ∀ n, w.guard.enter id = .error (.depthLimitExceeded n) ↔ id ∉ w.scopes ∧ limit = some n ∧ w.guard.depth = n
  opened : (∃ g, w.guard.enter id = .ok g) ↔ id ∉ w.scopes ∧ ∀ n ∈ limit, w.guard.depth < n
  step_error : ∀ e, w.guard.enter id = .error e → w.step (.enter id) = (w, [.refused e])
  step_ok : ∀ g, w.guard.enter id = .ok g → g.openTables = insert id w.guard.openTables ∧
    w.step (.enter id) = (⟨g, id :: w.scopes⟩, [.entered (w.guard.depth + 1)])
  closed : ∀ g more, w.guard.enter id = .ok g → (Walk.steps ⟨g, id :: w.scopes⟩ more).1.scopes = id :: w.scopes →
    (Walk.steps ⟨g, id :: w.scopes⟩ more).1.step .leave = (w, [.left w.guard.depth])

theorem IsScoped.enters (hw : w.IsScoped limit) (id : TableId) : w.Enters limit id where
  cyclic := by rw [enter_eq_cyclic_iff, hw.visiting]
  limited n := by
    rw [enter_eq_limit_iff, hw.visiting, hw.maxDepth, hw.depth_eq]
    refine and_congr_right fun _ => and_congr_right fun hn => ?_
    have hle := hw.length_le n hn
    omega
  opened := by
    rw [← hw.visiting, ← hw.maxDepth, ← reached?_eq_none_iff]
    simp [enter_eq_ok]
  step_error _ he := step_enter_error he
  step_ok g hg := by
    rw [step_enter_ok hg]
    obtain ⟨-, -, rfl⟩ := enter_eq_ok.1 hg
    exact ⟨List.toFinset_cons, rfl⟩
  closed g more hg hscopes := by
    have hinner := (hw.enter hg).steps more
    generalize (Walk.steps ⟨g, id :: w.scopes⟩ more).1 = inner at hinner hscopes ⊢
    obtain ⟨g', scopes⟩ := inner
    obtain rfl : scopes = id :: w.scopes := hscopes
    rw [hinner.step_leave, ← hw.eq_mk, hw.depth_eq]

end Walk

/-- **The open scopes at every point of a run on a new guard.**  The guard holds the tables of the open scopes, each once, its
depth is their number and within the limit, every table is entered as they say, closing the innermost scope removes its
table from the set, and closing all of them gives a new guard again. -/
theorem steps_new (limit : Option Nat) (ss : List Step) :
    let w := (Walk.steps ⟨new limit, []⟩ ss).1
    w.guard.openTables = w.scopes.toFinset ∧ w.scopes.Nodup ∧
      w.guard.depth = w.scopes.length ∧ w.guard.openTables.card = w.guard.depth ∧
      (∀ n ∈ limit, w.guard.depth ≤ n) ∧ (∀ id, w.Enters limit id) ∧
      (∀ id ∈ w.scopes.head?, (w.step .leave).1.scopes = w.scopes.tail ∧
        (w.step .leave).1.guard.openTables = w.guard.openTables.erase id) ∧
      w.steps (List.replicate w.scopes.length .leave) =
        (⟨new limit, []⟩, (List.range w.scopes.length).reverse.map .left) ∧
      (walk limit ss).1 = ⟨new limit, []⟩ := by
  intro w
  have hw : w.IsScoped limit := (Walk.isScoped_new limit).steps ss
  have hnodup : w.guard.visiting.Nodup := hw.visiting ▸ hw.nodup
  have hclosed := hw.steps_leave
  refine ⟨congrArg List.toFinset hw.visiting, hw.nodup, hw.depth_eq, card_openTables hnodup, fun n hn => ?_, hw.enters,
    fun id hid => ?_, hclosed, congrArg Prod.fst hclosed⟩
  · rw [hw.depth_eq]
    exact hw.length_le n hn
  · have hstep : (w.step .leave).1 = ⟨w.guard.leave id, w.scopes.tail⟩ := by
      rw [Walk.step, List.eq_cons_of_mem_head? hid]
      rfl
    rw [hstep]
    exact ⟨rfl, openTables_leave hnodup id⟩

-- A table that is open is a cycle also where the limit is reached, and closing its scope lets it be opened again.
example : (walk (some 2) [.enter ⟨1⟩, .enter ⟨2⟩, .enter ⟨1⟩, .enter ⟨3⟩, .leave, .enter ⟨2⟩]).2 =
    [.entered 1, .entered 2, .refused .cyclicStructure, .refused (.depthLimitExceeded 2), .left 1, .entered 2,
      .left 1, .left 0] := by decide

end Guard
end Interchange
