import Interchange.Entries
import Interchange.Yaml.Node.Basic
import Interchange.Yaml.Outline
/-!
# Expand — outlines from nodes

Aliases stand for copies of the nodes they name, and keys are the texts of scalars.  Numbers take the place of names
first: a name gets the number of names there were when it was given, and a number stands for the last node that got it.
-/
namespace Interchange
namespace Yaml
namespace Node

/-! ## Numbers for names -/

/-- What is known while names are replaced. -/
structure Naming where
  /-- The number of each name. -/
  numbers : Entries String Nat
  /-- The nodes with a number, each with its number. -/
  count : Nat
  isBroken : Bool

namespace Naming

def start : Naming := ⟨[], 0, false⟩

def tick (s : Naming) : Naming := { s with count := s.count + 1 }

def define (s : Naming) : Option String → Option Nat × Naming
  | none => (none, s.tick)
  | some name =>
    let n := s.numbers.length
    (some n, { s.tick with numbers := s.numbers.set name n })

/-- The end of a collection, if the text comes to it. -/
def close (s : Naming) : Naming := if s.isBroken then s else s.tick

end Naming

mutual

/-- **A tree with numbers for names.**  It is broken at an alias whose name was not given before. -/
def withNumbers : Node String → Naming → Node Nat × Naming
  | .scalar anchor tag text isPlain, s =>
    let (n, s) := s.define anchor
    (.scalar n tag text isPlain, s)
  | .sequence anchor tag items, s =>
    let (n, s) := s.define anchor
    let (items, s) := itemsWithNumbers items s
    (.sequence n tag items, s.close)
  | .mapping anchor tag members, s =>
    let (n, s) := s.define anchor
    let (members, s) := membersWithNumbers members s
    (.mapping n tag members, s.close)
  | .alias name, s =>
    match s.numbers.get? name with
    | some n => (.alias n, s.tick)
    | none => (.broken, { s with isBroken := true })
  | .broken, s => (.broken, { s with isBroken := true })

def itemsWithNumbers : List (Node String) → Naming → List (Node Nat) × Naming
  | [], s => ([], s)
  | d :: ds, s =>
    if s.isBroken then ([], s)
    else
      let (d, s) := withNumbers d s
      let (ds, s) := itemsWithNumbers ds s
      (d :: ds, s)

def membersWithNumbers : List (Node String × Node String) → Naming → List (Node Nat × Node Nat) × Naming
  | [], s => ([], s)
  | (k, v) :: ms, s =>
    if s.isBroken then ([], s)
    else
      let (k, s) := withNumbers k s
      if s.isBroken then ([(k, .broken)], s)
      else
        let (v, s) := withNumbers v s
        let (ms, s) := membersWithNumbers ms s
        ((k, v) :: ms, s)

end

mutual

/-- The nodes with a number, in the order of the text. -/
def numbered : Node Nat → List (Nat × Node Nat)
  | .scalar n tag text isPlain => n.toList.map (·, .scalar n tag text isPlain)
  | .sequence n tag items => n.toList.map (·, .sequence n tag items) ++ numberedItems items
  | .mapping n tag members => n.toList.map (·, .mapping n tag members) ++ numberedMembers members
  | .alias _ => []
  | .broken => []

def numberedItems : List (Node Nat) → List (Nat × Node Nat)
  | [] => []
  | d :: ds => numbered d ++ numberedItems ds

def numberedMembers : List (Node Nat × Node Nat) → List (Nat × Node Nat)
  | [] => []
  | (k, v) :: ms => numbered k ++ numbered v ++ numberedMembers ms

end

/-! ## Scalars -/

/-- **The atom of a text with a tag.**  Four tags name the kind of the scalar, which the text has to spell; a tag of the
document's own means nothing; with any other tag the text stands for itself. -/
def taggedAtom? (tag : Option String) (text : List Char) (isPlain : Bool) : Option Atom :=
  let untagged := if isPlain then Atom.ofPlain text else .text text
  match tag with
  | none => some untagged
  | some tag =>
    if tag = "tag:yaml.org,2002:bool" then (boolWord? text).map .bool
    else if tag = "tag:yaml.org,2002:int" then (plainInteger? text).map .integer
    else if tag = "tag:yaml.org,2002:float" then (plainFloat? text).map .float
    else if tag = "tag:yaml.org,2002:null" then if isNullWord text then some .null else none
    else if tag.startsWith "!" then some untagged
    else some (.text text)

/-! ## Expansion -/

/-- What a tree is expanded with. -/
structure Expansion where
  nodes : List (Nat × Node Nat)
  /-- The most aliases that are followed. -/
  maxAliases : Nat

namespace Expansion

/-- **The node that a node stands for.**  The aliases that were followed so far are counted. -/
def follow? (e : Expansion) (followed : Nat) : Node Nat → Option (Node Nat × Nat)
  | .alias n =>
    if e.maxAliases ≤ followed then none
    else (Entries.get? n e.nodes.reverse).map (·, followed + 1)
  | d => some (d, followed)

/-- **The label that a key is.** -/
def label (e : Expansion) (followed : Nat) (key : Node Nat) : Label × Nat :=
  match key, e.follow? followed key with
  | .broken, _ => (.broken, followed)
  | _, some (.scalar _ _ text _, followed) => (.text text, followed)
  | _, _ => (.noText, followed)

/-- Items in order, given how one is expanded. -/
def items (node : Nat → Node Nat → Outline × Nat) : (followed : Nat) → List (Node Nat) → List Outline × Nat
  | followed, [] => ([], followed)
  | followed, d :: ds =>
    let (o, followed) := node followed d
    let (os, followed) := items node followed ds
    (o :: os, followed)

/-- Members in order, given how a node is expanded. -/
def members (e : Expansion) (node : Nat → Node Nat → Outline × Nat) :
    (followed : Nat) → List (Node Nat × Node Nat) → List (Label × Outline) × Nat
  | followed, [] => ([], followed)
  | followed, (k, v) :: ms =>
    let (label, followed) := e.label followed k
    let (o, followed) := node followed v
    let (os, followed) := members e node followed ms
    ((label, o) :: os, followed)

/-- **The outline of a node**, inside which `room` more levels of collections may open. -/
def outline (e : Expansion) : (room followed : Nat) → Node Nat → Outline × Nat
  | room, followed, d =>
    match room, e.follow? followed d with
    | _, some (.scalar _ tag text isPlain, followed) =>
      match taggedAtom? tag text isPlain with
      | some a => (.scalar a, followed)
      | none => (.broken, followed)
    | room + 1, some (.sequence _ _ ds, followed) =>
      let (os, followed) := items (e.outline room) followed ds
      (.list os, followed)
    | room + 1, some (.mapping _ _ ms, followed) =>
      let (os, followed) := e.members (e.outline room) followed ms
      (.dict os, followed)
    | _, _ => (.broken, followed)

end Expansion

def maxNesting : Nat := 128

/-- **The outline of a tree.**  A hundred aliases may be followed for each place in the text where something starts or
ends. -/
def outline (root : Node String) : Outline :=
  let (root, s) := withNumbers root .start
  let e : Expansion := ⟨numbered root, s.count * 100⟩
  (e.outline maxNesting 0 root).1

end Node

/-- **What a whole text is taken for**; a text without a document stands for null. -/
def Stream.parsed (s : Stream String) : Parsed :=
  match s.root with
  | none => ⟨.scalar .null, s.isWhole⟩
  | some root => ⟨root.outline, s.isWhole⟩

end Yaml
end Interchange
