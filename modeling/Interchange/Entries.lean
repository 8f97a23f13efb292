/-!
# Entries — association lists in order of first insertion

Setting a present key keeps its place and replaces its value; a new key goes last.  Keys therefore stay distinct.
-/
namespace Interchange

/-- Pairs of a key and a value, in order. -/
abbrev Entries (κ α : Type) := List (κ × α)

namespace Entries

variable {κ α : Type} [DecidableEq κ]

def get? (k : κ) : Entries κ α → Option α
  | [] => none
  | (k', v) :: es => if k' = k then some v else get? k es

/-- **Set a key**: in its place if it is present, else at the end. -/
def set (k : κ) (v : α) : Entries κ α → Entries κ α
  | [] => [(k, v)]
  | (k', v') :: es => if k' = k then (k, v) :: es else (k', v') :: set k v es

/-- Remove a key, the others keeping their order. -/
def erase (k : κ) : Entries κ α → Entries κ α
  | [] => []
  | (k', v') :: es => if k' = k then es else (k', v') :: erase k es

/-- Pairs set one after another, onto entries already there. -/
def setAll (es : Entries κ α) (pairs : List (κ × α)) : Entries κ α :=
  pairs.foldl (fun es p => set p.1 p.2 es) es

/-- **Pairs set one after another**: a repeated key has its first place and its last value. -/
def ofList (pairs : List (κ × α)) : Entries κ α := setAll [] pairs

def keys (es : Entries κ α) : List κ := es.map Prod.fst

theorem mem_keys_set {k k' : κ} {v : α} {es : Entries κ α} :
    k' ∈ keys (set k v es) ↔ k' = k ∨ k' ∈ keys es := by
  induction es with
  | nil => simp [set, keys]
  | cons e es ih =>
    obtain ⟨a, b⟩ := e
    unfold set
    split
    · subst_vars; simp [keys]
    · simp only [keys, List.map_cons, List.mem_cons] at ih ⊢
      rw [ih]; exact or_left_comm

theorem nodup_keys_set {k : κ} {v : α} {es : Entries κ α} (h : (keys es).Nodup) : (keys (set k v es)).Nodup := by
  induction es with
  | nil => simp [set, keys]
  | cons e es ih =>
    obtain ⟨a, b⟩ := e
    simp only [keys, List.map_cons, List.nodup_cons] at h ih
    unfold set
    split
    · subst_vars; simpa [keys] using h
    · rename_i hne
      simp only [keys, List.map_cons, List.nodup_cons]
      refine ⟨fun hm => ?_, ih h.2⟩
      rcases mem_keys_set.1 hm with rfl | hm
      · exact hne rfl
      · exact h.1 hm

theorem keys_erase_sublist {k : κ} {es : Entries κ α} : (keys (erase k es)).Sublist (keys es) := by
  induction es with
  | nil => exact .slnil
  | cons e es ih =>
    obtain ⟨a, b⟩ := e
    unfold erase
    split
    · exact List.sublist_cons_self ..
    · exact ih.cons_cons a

theorem nodup_keys_erase {k : κ} {es : Entries κ α} (h : (keys es).Nodup) : (keys (erase k es)).Nodup :=
  h.sublist keys_erase_sublist

theorem nodup_keys_setAll {pairs : List (κ × α)} {es : Entries κ α} (h : (keys es).Nodup) :
    (keys (setAll es pairs)).Nodup := by
  unfold setAll
  induction pairs generalizing es with
  | nil => exact h
  | cons p ps ih => exact ih (nodup_keys_set h)

theorem nodup_keys_ofList {pairs : List (κ × α)} : (keys (ofList pairs)).Nodup :=
  nodup_keys_setAll (by simp [keys])

end Entries
end Interchange
