import Interchange.Entries
import Interchange.Toml.Scalar
/-!
# Tree — how the statements of a TOML document add up

A table is defined once: under its header, by dotted keys, or as a value.  Until then it may be there because something
inside it was defined first.  A tree remembers for each table which of these it is; a statement that defines something a
second time is refused.
-/
namespace Interchange
namespace Toml

/-- How a table came about. -/
inductive Origin where
  /-- Under a header of its own. -/
  | headed
  /-- On the way to a header. -/
  | implied
  /-- On the way of a dotted key. -/
  | dotted
deriving DecidableEq, Repr

/-- What a name stands for while a document is read. -/
inductive Node where
  /-- A value, which nothing can be added to. -/
  | value (d : Document Scalar)
  | table (origin : Origin) (members : List (String × Node))
  /-- An array of tables under headers. -/
  | tables (items : List (List (String × Node)))

/-- The members of a table. -/
abbrev Branch := Entries String Node

/-- A value for a dotted key: the parts before the last, the last, and the value. -/
structure Assignment where
  path : List String
  name : String
  value : Document Scalar

/-- A header, if it is not the start of the document, and the assignments under it. -/
structure Block where
  path : List String
  name : String
  isItem : Bool
  body : List Assignment

namespace Branch

/-- **Change the table at a path.**  Missing tables on the way get the origin `made`.  The way leads through the last
table of an array.  Dotted keys do not enter tables under headers. -/
def alterAt (made : Origin) (f : Origin → Branch → Option Branch) : Origin → List String → Branch → Option Branch
  | origin, [], b => f origin b
  | _, name :: path, b =>
    match Entries.get? name b with
    | none => (alterAt made f made path []).map fun c => Entries.set name (.table made c) b
    | some (.value _) => none
    | some (.table origin c) =>
      if made = .dotted ∧ origin = .headed then none
      else (alterAt made f origin path c).map fun c => Entries.set name (.table origin c) b
    | some (.tables items) =>
      match items.getLast? with
      | none => none
      | some c => (alterAt made f .headed path c).map fun c => Entries.set name (.tables (items.dropLast ++ [c])) b

/-- **Assign a value in a table under a header.**  The table that gets it must be that one itself, or one made by dotted
keys alone, and must not have the name yet. -/
def assign (b : Branch) (a : Assignment) : Option Branch :=
  alterAt .dotted
    (fun origin b =>
      if (origin = .dotted) = (a.path = []) ∨ (Entries.get? a.name b).isSome then none
      else some (Entries.set a.name (.value a.value) b))
    .headed a.path b

def assignAll : Branch → List Assignment → Option Branch
  | b, [] => some b
  | b, a :: as => (assign b a).bind fun b => assignAll b as

/-- **A table or an item of an array under its header.**  A table that is there already as implied is filled and moves to
the end. -/
def define (b : Branch) (block : Block) : Option Branch :=
  alterAt .implied
    (fun _ b =>
      match block.isItem, Entries.get? block.name b with
      | false, none => (assignAll [] block.body).map fun t => Entries.set block.name (.table .headed t) b
      | false, some (.table .implied t) =>
        (assignAll t block.body).map fun t => Entries.set block.name (.table .headed t) (Entries.erase block.name b)
      | true, none => (assignAll [] block.body).map fun t => Entries.set block.name (.tables [t]) b
      | true, some (.tables items) =>
        (assignAll [] block.body).map fun t => Entries.set block.name (.tables (items ++ [t])) b
      | _, _ => none)
    .headed block.path b

def defineAll : Branch → List Block → Option Branch
  | b, [] => some b
  | b, block :: blocks => (define b block).bind fun b => defineAll b blocks

end Branch

mutual

def Node.document : Node → Document Scalar
  | .value d => d
  | .table _ members => .dict (membersDocument members)
  | .tables items => .list (itemsDocument items)

def membersDocument : List (String × Node) → Members
  | [] => []
  | (name, n) :: ms => (name, n.document) :: membersDocument ms

def itemsDocument : List (List (String × Node)) → List (Document Scalar)
  | [] => []
  | ms :: items => .dict (membersDocument ms) :: itemsDocument items

end

/-! ## Moments in the form of tables -/

def momentName : String := "$__toml_private_datetime"

mutual

/-- **A table whose first name marks it is the moment in the text there**, whatever else it holds; if that is no moment,
there is no document. -/
def unmask : Document Scalar → Option (Document Scalar)
  | .scalar a => some (.scalar a)
  | .list items => (unmaskItems items).map .list
  | .dict [] => some (.dict [])
  | .dict ((name, d) :: ms) =>
    if name = momentName then
      match d with
      | .scalar (.string s) => (Moment.ofText? s.toList).map fun m => .scalar (.moment m)
      | _ => none
    else do return .dict ((name, ← unmask d) :: (← unmaskMembers ms))

def unmaskItems : List (Document Scalar) → Option (List (Document Scalar))
  | [] => some []
  | d :: ds => do return (← unmask d) :: (← unmaskItems ds)

def unmaskMembers : Members → Option Members
  | [] => some []
  | (name, d) :: ms => do return (name, ← unmask d) :: (← unmaskMembers ms)

end

end Toml
end Interchange
