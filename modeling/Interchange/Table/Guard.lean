import Interchange.Table.Heap
/-!
# Guard — the tables open on a path

A guard holds the identities of the tables that are being written.  A table cannot be entered while it is open, nor
when as many tables are open as the limit allows.
-/
namespace Interchange

structure Guard where
  visiting : List TableId
  maxDepth : Option Nat
deriving DecidableEq, Repr

namespace Guard

def new (maxDepth : Option Nat) : Guard := ⟨[], maxDepth⟩

def depth (g : Guard) : Nat := g.visiting.length

/-- The limit, when it is reached. -/
def reached? (g : Guard) : Option Nat := g.maxDepth.filter (· ≤ g.depth)

/-- **Open a table.**  One that is open already is a cycle, whatever the limit. -/
def enter (g : Guard) (id : TableId) : Except Error Guard :=
  if id ∈ g.visiting then .error .cyclicStructure
  else
    match g.reached? with
    | some limit => .error (.depthLimitExceeded limit)
    | none => .ok { g with visiting := id :: g.visiting }

def leave (g : Guard) (id : TableId) : Guard := { g with visiting := g.visiting.erase id }

/-- A step of a guarded walk: open a table, or close the innermost open one. -/
inductive Step where
  | enter (id : TableId)
  | leave
deriving DecidableEq, Repr

/-- What a step gives: the depth after it, or why a table was not opened. -/
inductive Outcome where
  | entered (depth : Nat)
  | refused (error : Error)
  | left (depth : Nat)
deriving DecidableEq, Repr

/-- A guard with the scopes that are open on it, innermost first. -/
structure Walk where
  guard : Guard
  scopes : List TableId
deriving DecidableEq, Repr

namespace Walk

/-- **One step.**  A refused table opens no scope, and with no scope open there is nothing to close. -/
def step (w : Walk) : Step → Walk × List Outcome
  | .enter id =>
    match w.guard.enter id with
    | .ok g => (⟨g, id :: w.scopes⟩, [.entered g.depth])
    | .error e => (w, [.refused e])
  | .leave =>
    match w.scopes with
    | [] => (w, [])
    | id :: scopes => (⟨w.guard.leave id, scopes⟩, [.left (w.guard.leave id).depth])

def steps (w : Walk) : List Step → Walk × List Outcome
  | [] => (w, [])
  | s :: ss =>
    let (w, os) := w.step s
    let (w, os') := w.steps ss
    (w, os ++ os')

end Walk

/-- **A whole walk**: steps on a new guard, after which the scopes still open are closed. -/
def walk (maxDepth : Option Nat) (ss : List Step) : Walk × List Outcome :=
  let (w, os) := Walk.steps ⟨new maxDepth, []⟩ ss
  let (w, os') := w.steps (List.replicate w.scopes.length .leave)
  (w, os ++ os')

end Guard
end Interchange
