import Interchange.Proofs.Encoding
import Interchange.Xml.Element
/-!
# Threading — one guard handed on through a walk

The writers walk with a guard that every item of a table gets anew.  A walk can instead hand one guard on, opening a table on
it and closing the table again: what an item leaves is what the next one gets, also where an item fails.  The two are one
walk, as everything that is written leaves the guard as it was (`Threaded.Restores`): with the same guard, the threaded walk
gives the same document or the same error, and that guard (`Dialect.restores_threadTable`,
`Xml.Element.restores_threadRecord`).
-/
namespace Interchange

theorem Guard.leave_of_enter {g g' : Guard} {id : TableId} (h : g.enter id = .ok g') : g'.leave id = g := by
  obtain ⟨-, -, rfl⟩ := enter_eq_ok.1 h
  simp [leave]

/-- A walk that hands one guard on; it leaves a guard also where it fails. -/
abbrev Threaded := ExceptT Error (StateM Guard)

namespace Threaded

variable {α β : Type}

/-- **A scope**: the table is open while `body` runs, and it is closed on every way out. -/
def withOpen (id : TableId) (body : Threaded α) : Threaded α := ExceptT.mk do
  match (← get).enter id with
  | .error e => return .error e
  | .ok inner =>
    set inner
    let result ← body.run
    modify (·.leave id)
    return result

/-- **A walk that gives a result at a guard and leaves the guard as it was.** -/
def Restores (x : Threaded α) (g : Guard) (r : Except Error α) : Prop := StateT.run x.run g = (r, g)

variable {g : Guard}

theorem restores_pure (a : α) : Restores (pure a) g (.ok a) := rfl

theorem restores_throw (e : Error) : Restores (throw e : Threaded α) g (.error e) := rfl

theorem restores_lift (r : Except Error α) : Restores (liftM r) g r := rfl

theorem Restores.bind {x : Threaded α} {f : α → Threaded β} {r : Except Error α} {k : α → Except Error β}
    (hx : Restores x g r) (hf : ∀ a, Restores (f a) g (k a)) : Restores (x >>= f) g (r >>= k) := by
  rw [Restores, ExceptT.run_bind, StateT.run_bind, hx]
  cases r with
  | error e => rfl
  | ok a => exact hf a

/-- **A scope restores the guard** if what runs in it restores the one with the table open. -/
theorem Restores.withOpen {id : TableId} {body : Threaded α} {k : Guard → Except Error α}
    (hbody : ∀ inner, g.enter id = .ok inner → Restores body inner (k inner)) :
    Restores (Threaded.withOpen id body) g (g.enter id >>= k) := by
  rw [Restores, Threaded.withOpen, ExceptT.run_mk, StateT.run_bind, StateT.run_get, pure_bind]
  cases hg : g.enter id with
  | error e => rfl
  | ok inner =>
    have hleave : (k inner, inner.leave id) = (k inner, g) := by rw [Guard.leave_of_enter hg]
    simp only [StateT.run_bind, StateT.run_set, pure_bind, show StateT.run body.run inner = _ from hbody inner hg]
    exact hleave

end Threaded

open Threaded

namespace Dialect

variable {α : Type} (d : Dialect α)

/-! ## The walk of the three formats -/

def threadValue (table : TableId → Threaded (Document α)) : Value → Threaded (Document α)
  | .table id => table id
  | v => liftM (d.encodeValue (fun _ => .error .cyclicStructure) v)

def threadEntry (value : Value → Threaded (Document α)) (members : Entries String (Document α)) (e : Key × Value) :
    Threaded (Entries String (Document α)) :=
  match e.1.name? with
  | none => throw (d.badKey e.1.typeName)
  | some name =>
    if HasNil.isNil e.2 && !d.keepsNil then pure members
    else do
      let member ← value e.2
      return members.set name member

def threadForm (value : Value → Threaded (Document α)) : Form Value → Threaded (Document α)
  | .sequence items => return .list (← items.mapM value)
  | .mapping entries => return .dict (← entries.foldlM (d.threadEntry value) [])

/-- **A table on a guard that is handed on.** -/
def threadTable (stuck : Error) (h : Heap) : (room : Nat) → TableId → Threaded (Document α)
  | 0, _ => throw stuck
  | room + 1, id => withOpen id (d.threadForm (d.threadValue (threadTable stuck h room)) (h.get id).shape)

/-- A table that is a mapping whatever its shape. -/
def threadMapping (stuck : Error) (h : Heap) (room : Nat) (root : TableId) : Threaded (List (String × Document α)) :=
  withOpen root ((h.get root).entries.foldlM (d.threadEntry (d.threadValue (d.threadTable stuck h room))) [])

variable {d} {g : Guard}

theorem restores_threadValue {table : TableId → Threaded (Document α)} {table' : TableId → Except Error (Document α)}
    (htable : ∀ id, Restores (table id) g (table' id)) (v : Value) :
    Restores (d.threadValue table v) g (d.encodeValue table' v) := by
  cases v with
  | table id => exact htable id
  | _ => exact restores_lift _

section

variable {value : Value → Threaded (Document α)} {value' : Value → Except Error (Document α)}

theorem restores_items (hvalue : ∀ v, Restores (value v) g (value' v)) :
    ∀ vs : List Value, Restores (vs.mapM value) g (encodeItems value' vs)
  | [] => restores_pure []
  | v :: vs => by
    rw [List.mapM_cons, encodeItems]
    exact (hvalue v).bind fun item => (restores_items hvalue vs).bind fun items => restores_pure (item :: items)

theorem restores_entries (hvalue : ∀ v, Restores (value v) g (value' v)) :
    ∀ (es : List (Key × Value)) (members : Entries String (Document α)),
      Restores (es.foldlM (d.threadEntry value) members) g (d.encodeEntries value' members es)
  | [], members => restores_pure members
  | (k, v) :: es, members => by
    rw [List.foldlM_cons, threadEntry, encodeEntries]
    dsimp only
    cases k.name? with
    | none => exact (restores_throw _).bind (k := fun ms => d.encodeEntries value' ms es) fun ms => restores_entries hvalue es ms
    | some name =>
      dsimp only
      split
      · rw [pure_bind]
        exact restores_entries hvalue es members
      · rw [bind_assoc]
        refine (hvalue v).bind fun member => ?_
        rw [pure_bind]
        exact restores_entries hvalue es (members.set name member)

theorem restores_threadForm (hvalue : ∀ v, Restores (value v) g (value' v)) (f : Form Value) :
    Restores (d.threadForm value f) g (d.encodeForm value' f) := by
  cases f with
  | sequence items => exact (restores_items hvalue items).bind fun ds => restores_pure (Document.list ds)
  | mapping entries => exact (restores_entries hvalue entries []).bind fun ms => restores_pure (Document.dict ms)

end

/-- **A table is written alike on a guard that is handed on**, which is as before after it, whether it was written or not. -/
theorem restores_threadTable {stuck : Error} {h : Heap} : ∀ {room : Nat} {g : Guard} {id : TableId},
    Restores (d.threadTable stuck h room id) g (d.encodeTable stuck h room g id)
  | 0, _, _ => restores_throw stuck
  | _ + 1, _, _ => .withOpen fun _ _ => restores_threadForm (restores_threadValue fun _ => restores_threadTable) _

/-- **So is a table that is a mapping whatever its shape**, on a new guard. -/
theorem restores_threadMapping (stuck : Error) (h : Heap) (room : Nat) (options : Options) (root : TableId) :
    Restores (d.threadMapping stuck h room root) (.new options.maxDepth) (d.encodeMappingWithin stuck h room options root) :=
  .withOpen fun _ _ => restores_entries (restores_threadValue fun _ => restores_threadTable) _ []

end Dialect

namespace Xml
namespace Element

/-! ## The walk of records -/

def threadChild (record : TableId → Threaded Element) : Value → Threaded Element
  | .table id => record id
  | v => throw (.childrenType v.typeName)

/-- **A record on a guard that is handed on.** -/
def threadRecord (stuck : Error) (h : Heap) : (room : Nat) → TableId → Threaded Element
  | 0, _ => throw stuck
  | room + 1, id => withOpen id do
    let record := h.get id
    let tag ← tagOf record
    let entries ← attributeEntries h record
    let text ← textOf record
    let values ← childValues h record
    let attributes ← attributesOf entries
    let children ← values.mapM (threadChild (threadRecord stuck h room))
    return mk tag attributes text children

variable {g : Guard}

theorem restores_children {record : TableId → Threaded Element} {record' : TableId → Except Error Element}
    (hrecord : ∀ id, Restores (record id) g (record' id)) :
    ∀ vs : List Value, Restores (vs.mapM (threadChild record)) g (childrenOf record' vs)
  | [] => restores_pure []
  | v :: vs => by
    rw [List.mapM_cons]
    cases v with
    | table id =>
      exact (hrecord id).bind fun child => (restores_children hrecord vs).bind fun rest => restores_pure (child :: rest)
    | _ => rfl

/-- **A record is written alike on a guard that is handed on**, which is as before after it, whether it was written or not. -/
theorem restores_threadRecord {stuck : Error} {h : Heap} : ∀ {room : Nat} {g : Guard} {id : TableId},
    Restores (threadRecord stuck h room id) g (ofRecordWithin stuck h room g id)
  | 0, _, _ => restores_throw stuck
  | _ + 1, _, _ => .withOpen fun _ _ =>
    (restores_lift _).bind fun _ => (restores_lift _).bind fun _ => (restores_lift _).bind fun _ =>
      (restores_lift _).bind fun _ => (restores_lift _).bind fun _ =>
        (restores_children (fun _ => restores_threadRecord) _).bind fun _ => restores_pure _

end Element
end Xml
end Interchange
