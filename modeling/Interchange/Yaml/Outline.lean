import Interchange.Yaml.Scalar
/-!
# Outline — a text taken apart

What a text of YAML consists of, its scalars resolved but its texts not yet asked whether they spell a value, and its
keys still to be judged.  An outline is read in the order of the text, so what refuses it first is what counts.
-/
namespace Interchange
namespace Yaml

/-- The key of a member: a text, something else, or a place where the text breaks a rule. -/
inductive Label where
  | text (cs : List Char)
  | noText
  | broken
deriving DecidableEq, Repr

/-- The tree of a text, broken where the text breaks a rule. -/
inductive Outline where
  | scalar (a : Atom)
  | list (items : List Outline)
  | dict (members : List (Label × Outline))
  | broken

/-- Why a text is no document. -/
inductive Refusal where
  | broken
  /-- A key is not the text of a scalar, or spells null. -/
  | badKey
deriving DecidableEq, Repr

/-- Whether a text spells null; the empty one does. -/
def spellsNull (cs : List Char) : Bool := cs.isEmpty || isNullWord cs

/-- **The name that a key is.**  One that spells null is none, however it is written. -/
def Label.name : Label → Except Refusal String
  | text cs => if spellsNull cs then .error .badKey else .ok (String.ofList cs)
  | noText => .error .badKey
  | broken => .error .broken

namespace Outline

mutual

/-- **The document of an outline.** -/
def document : Outline → Except Refusal (Document Scalar)
  | .scalar a => .ok (.scalar a.scalar)
  | .list items => (itemDocuments items).map .list
  | .dict members => (memberDocuments members).map .dict
  | .broken => .error .broken

/-- Items in order, up to the first that is refused. -/
def itemDocuments : List Outline → Except Refusal (List (Document Scalar))
  | [] => .ok []
  | o :: os => do
    let d ← document o
    let ds ← itemDocuments os
    return d :: ds

/-- Members in order, the key of each before its value, up to the first that is refused. -/
def memberDocuments : List (Label × Outline) → Except Refusal Members
  | [] => .ok []
  | (label, o) :: os => do
    let name ← label.name
    let d ← document o
    let ms ← memberDocuments os
    return (name, d) :: ms

end

end Outline

/-- **What a text is taken for**: the outline of its first document, and whether nothing but that is there. -/
structure Parsed where
  root : Outline
  isWhole : Bool

def Parsed.document (p : Parsed) : Except Refusal (Document Scalar) := do
  let d ← p.root.document
  if p.isWhole then return d else .error .broken

end Yaml
end Interchange
