import Interchange.Proofs.Form
/-!
# Trees — tables spelled out

A tree is a value whose tables are spelled out in place, so it has no identities and no sharing.  What an encoder or a
normal form makes of a tree depends on the forms of its tables; `fold` is that recursion, and `fold_table` its equation.
-/
namespace Interchange

/-- **A value with its tables spelled out.** -/
inductive Tree where
  | nil
  | bool (b : Bool)
  | number (n : Number)
  | string (s : String)
  | foreign (kind : String) (handle : Nat)
  | table (entries : List (Key × Tree))

namespace Tree

def isNil : Tree → Bool
  | nil => true
  | _ => false

instance : HasNil Tree := ⟨isNil⟩

/-- A tree beside something made of it. -/
instance {β : Type} : HasNil (Tree × β) := ⟨fun p => p.1.isNil⟩

mutual

/-- **How deep tables nest.** -/
def height : Tree → Nat
  | .table es => entriesHeight es + 1
  | _ => 0

def entriesHeight : List (Key × Tree) → Nat
  | [] => 0
  | (_, t) :: es => max (height t) (entriesHeight es)

end

mutual

/-- **A tree by the forms of its tables**: what a leaf gives, what the items of a sequence give together, and what the
entries of a mapping give, each beside its value. -/
def fold {β : Type} (leaf : Tree → β) (sequence : List β → β) (mapping : List (Key × Tree × β) → β) : Tree → β
  | .table es =>
    match Entries.form (foldEntries leaf sequence mapping es) with
    | .sequence items => sequence (items.map Prod.snd)
    | .mapping es => mapping es
  | t => leaf t

def foldEntries {β : Type} (leaf : Tree → β) (sequence : List β → β) (mapping : List (Key × Tree × β) → β) :
    List (Key × Tree) → List (Key × Tree × β)
  | [] => []
  | (k, t) :: es => (k, t, fold leaf sequence mapping t) :: foldEntries leaf sequence mapping es

end

theorem entriesHeight_le {es : List (Key × Tree)} {e : Key × Tree} (he : e ∈ es) : e.2.height ≤ entriesHeight es := by
  induction es with
  | nil => cases he
  | cons e' es ih =>
    obtain ⟨k, t⟩ := e'
    rw [entriesHeight]
    rcases List.mem_cons.1 he with rfl | he
    · exact Nat.le_max_left _ _
    · exact Nat.le_trans (ih he) (Nat.le_max_right _ _)

theorem height_lt_of_mem {es : List (Key × Tree)} {e : Key × Tree} (he : e ∈ es) : e.2.height < (table es).height := by
  rw [height]
  exact Nat.lt_succ_of_le (entriesHeight_le he)

theorem entriesHeight_le_of_forall {n : Nat} : ∀ {es : List (Key × Tree)}, (∀ e ∈ es, e.2.height ≤ n) →
    entriesHeight es ≤ n
  | [], _ => Nat.zero_le n
  | (_, _) :: _, h => by
    rw [entriesHeight]
    exact Nat.max_le.2 ⟨h _ List.mem_cons_self, entriesHeight_le_of_forall fun e he => h e (List.mem_cons_of_mem _ he)⟩

mutual

/-- **Induction on a tree**: a table has what all the values of its entries have. -/
@[induction_eliminator]
theorem induct {P : Tree → Prop} (nil : P nil) (bool : ∀ b, P (bool b)) (number : ∀ n, P (number n))
    (string : ∀ s, P (string s)) (foreign : ∀ kind handle, P (foreign kind handle))
    (table : ∀ es, (∀ e ∈ es, P e.2) → P (table es)) : ∀ t, P t
  | .nil => nil
  | .bool b => bool b
  | .number n => number n
  | .string s => string s
  | .foreign kind handle => foreign kind handle
  | .table es => table es (inductEntries nil bool number string foreign table es)

theorem inductEntries {P : Tree → Prop} (nil : P .nil) (bool : ∀ b, P (.bool b)) (number : ∀ n, P (.number n))
    (string : ∀ s, P (.string s)) (foreign : ∀ kind handle, P (.foreign kind handle))
    (table : ∀ es, (∀ e ∈ es, P e.2) → P (.table es)) : ∀ es : List (Key × Tree), ∀ e ∈ es, P e.2
  | [], _, he => nomatch he
  | (_, t) :: es, e, he => by
    rcases List.mem_cons.1 he with rfl | he
    · exact induct nil bool number string foreign table t
    · exact inductEntries nil bool number string foreign table es e he

end

section

variable {β : Type} (leaf : Tree → β) (sequence : List β → β) (mapping : List (Key × Tree × β) → β)

theorem foldEntries_eq (es : List (Key × Tree)) :
    foldEntries leaf sequence mapping es = es.map fun e => (e.1, e.2, fold leaf sequence mapping e.2) := by
  induction es with
  | nil => rfl
  | cons e es ih => rw [foldEntries, ih, List.map_cons]

/-- **A table folds by the form of its entries.** -/
theorem fold_table (es : List (Key × Tree)) :
    fold leaf sequence mapping (.table es) =
      match Entries.form es with
      | .sequence items => sequence (items.map (fold leaf sequence mapping))
      | .mapping es => mapping (es.map fun e => (e.1, e.2, fold leaf sequence mapping e.2)) := by
  rw [fold, foldEntries_eq]
  generalize fold leaf sequence mapping = f
  rw [Entries.form_map (fun t => (t, f t)) (fun _ => rfl) es]
  cases Entries.form es with
  | sequence items => simp only [Form.map, List.map_map]; rfl
  | mapping es => rfl

end

end Tree
end Interchange
