import Interchange.Xml.Reference
/-!
# Nodes — elements with their namespaces

The tokens of a document become a tree of elements whose names are resolved: a namespace and a base name.  Every element
knows the bindings in scope at it, its own first and then those of its parent that it does not rebind.  How many elements,
attributes and bindings a parser can hold is left out.
-/
namespace Interchange
namespace Xml

/-- A namespace bound to a label, or to no label as the default. -/
structure Binding where
  label : Option String
  uri : String
deriving DecidableEq, Repr

/-- The bindings at an element; the first for a label counts. -/
abbrev Scope := List Binding

/-- A name in a namespace, or in none. -/
structure ExpandedName where
  space : Option String
  base : String
deriving DecidableEq, Repr

/-- The namespace that the label `xml` always means. -/
def xmlUri : String := "http://www.w3.org/XML/1998/namespace"

/-- The namespace of declarations, which nothing can be bound to. -/
def xmlnsUri : String := "http://www.w3.org/2000/xmlns/"

inductive Node where
  | mk (name : ExpandedName) (attributes : List (ExpandedName × String)) (scope : Scope) (text : List Char)
      (children : List Node)

namespace Scope

def binding? (scope : Scope) (label : Option String) : Option Binding := scope.find? (·.label == label)

/-- The namespace of the name of an element: by its label, or the default one.  A label must be bound. -/
def resolve? (scope : Scope) (name : QName) : Option ExpandedName :=
  if name.label.isEmpty then some ⟨(scope.binding? none).map Binding.uri, name.base⟩
  else (scope.binding? (some name.label)).map fun b => ⟨some b.uri, name.base⟩

/-- The namespace of the name of an attribute: without a label there is none, and the label `xml` has its own. -/
def resolveAttribute? (scope : Scope) (name : QName) : Option ExpandedName :=
  if name.label = "xml" then some ⟨some xmlUri, name.base⟩
  else if name.label.isEmpty then some ⟨none, name.base⟩
  else scope.resolve? name

/-- What a scope takes over from an outer one: the bindings one after another whose label it does not have yet. -/
def inherited : (scope outer : Scope) → Scope
  | _, [] => []
  | scope, b :: outer => if scope.any (·.label == b.label) then inherited scope outer else b :: inherited (scope ++ [b]) outer

/-- **The bindings at an element** that declares some inside others.  Without declarations they are the outer ones, with
a default that was declared twice still twice among them. -/
def declare (own outer : Scope) : Scope := if own.isEmpty then outer else own ++ own.inherited outer

end Scope

/-- The attributes of a tag: the namespaces they bind, and the others. -/
structure TagData where
  own : Scope
  attributes : List (QName × String)

def TagData.empty : TagData := ⟨[], []⟩

/-- **Sort an attribute** of a tag.  A declaration binds a label once, and neither of the two fixed namespaces; the label
`xml` may only be declared as what it is, which binds nothing.  Left out is the capacity of the parser, which refuses a
document with more than `2 ^ 16` different bindings. -/
def TagData.add? (t : TagData) (name : QName) (value : String) : Option TagData :=
  if name.label = "xmlns" then
    if value = xmlnsUri ∨ (name.base = "xml" ∧ value ≠ xmlUri) ∨ (name.base ≠ "xml" ∧ value = xmlUri) then none
    else if t.own.any (·.label == some name.base) then none
    else if value = xmlUri then some t
    else some { t with own := t.own ++ [⟨some name.base, value⟩] }
  else if name.base = "xmlns" then
    if value = xmlUri ∨ value = xmlnsUri then none else some { t with own := t.own ++ [⟨none, value⟩] }
  else some { t with attributes := t.attributes ++ [(name, value)] }

/-- Attributes resolved in order; no two may have one name. -/
def resolveAttributes? (scope : Scope) (done : List (ExpandedName × String)) :
    List (QName × String) → Option (List (ExpandedName × String))
  | [] => some done
  | (name, value) :: rest => do
    let name ← scope.resolveAttribute? name
    if done.any (·.1 == name) then none else resolveAttributes? scope (done ++ [(name, value)]) rest

/-! ## Building -/

/-- An open element. -/
structure Frame where
  written : QName
  name : ExpandedName
  attributes : List (ExpandedName × String)
  scope : Scope
  text : List Char
  /-- The children so far, the last first. -/
  children : List Node

def Frame.node (f : Frame) : Node := .mk f.name f.attributes f.scope f.text f.children.reverse

/-- A document half read: the open elements, the innermost first, the outermost element once it is closed, the attributes
of a tag that did not end, and the references counted. -/
structure Build where
  frames : List Frame
  root : Option Node
  pending : TagData
  references : Nat

namespace Build

def scope (b : Build) : Scope :=
  match b.frames with
  | [] => []
  | f :: _ => f.scope

/-- A closed element, in its parent or as the outermost one. -/
def attach (b : Build) (n : Node) : Build :=
  match b.frames with
  | [] => { b with root := b.root <|> some n }
  | f :: fs => { b with frames := { f with children := n :: f.children } :: fs }

def addText (b : Build) (cs : List Char) : Build :=
  match b.frames with
  | [] => b
  | f :: fs => { b with frames := { f with text := f.text ++ cs } :: fs }

/-- The attributes of a tag, their values resolved. -/
def tagData? (entities : List Entity) (levels : Nat) :
    List (QName × List Char) → TagData → Nat → Option (TagData × Nat)
  | [], t, references => some (t, references)
  | (name, raw) :: rest, t, references => do
    let (value, references) ← attributeChars entities levels raw references
    let t ← t.add? name (String.ofList value)
    tagData? entities levels rest t references

def frame? (b : Build) (name : QName) (t : TagData) : Option Frame := do
  let scope := t.own.declare b.scope
  let attributes ← resolveAttributes? scope [] t.attributes
  let resolved ← scope.resolve? name
  return ⟨name, resolved, attributes, scope, [], []⟩

/-- **A start tag.**  One that does not end opens nothing, and its attributes are the first of the next tag. -/
def open? (b : Build) (entities : List Entity) (levels : Nat) (name : QName)
    (attributes : List (QName × List Char)) (ending : TagEnd) : Option Build := do
  if name.label = "xmlns" then none
  else
    let (t, references) ← tagData? entities levels attributes b.pending b.references
    match ending with
    | .missing => return { b with pending := t, references }
    | .empty => return { b with pending := .empty, references }.attach (← b.frame? name t).node
    | .opening => return { b with frames := (← b.frame? name t) :: b.frames, pending := .empty, references }

/-- An end tag.  It closes the innermost element, whose name it repeats as written.  Where the text of an entity has closed
the outermost element already, it closes nothing. -/
def close? (b : Build) (name : QName) : Option Build :=
  match b.frames with
  | [] => some b
  | f :: fs => if f.written = name then some ({ b with frames := fs }.attach f.node) else none

/-- Pieces of character data, entities expanded by `expand`. -/
def addPieces (expand : String → Build → Option Build) : List Piece → Build → Option Build
  | [], b => some b
  | .chars cs :: ps, b => addPieces expand ps (b.addText cs)
  | .entity name :: ps, b => (expand name b).bind (addPieces expand ps)

/-- One token, with `levels` levels of entities still free. -/
def step (entities : List Entity) (levels : Nat) (expand : String → Build → Option Build) (b : Build) :
    Token → Option Build
  | .start name attributes ending => b.open? entities levels name attributes ending
  | .finish name => b.close? name
  | .cdata raw => some (b.addText (cdataChars raw))
  | .text raw => (pieces (levels = maxEntityDepth) raw).bind fun ps => addPieces expand ps b

/-- Whether an end tag stands before any start tag, as it may not in an entity. -/
def startsClosing : List Token → Bool
  | [] => false
  | .start _ _ _ :: _ => false
  | .finish _ :: _ => true
  | _ :: ts => startsClosing ts

/-- **Tokens in order**, with `levels` levels of entities still free.  The text of an entity is content of its own. -/
def run (entities : List Entity) : (levels : Nat) → List Token → Build → Option Build
  | 0, ts, b => ts.foldlM (step entities 0 fun _ _ => none) b
  | levels + 1, ts, b =>
    let expand (name : String) (b : Build) : Option Build := do
      let text ← entityText? entities name
      let references ← countReference? (levels + 1) b.references
      let ts ← Token.ofEntity? text
      if startsClosing ts then none
      else
        let b ← run entities levels ts { b with references }
        return { b with references := recount (levels + 1) b.references }
    ts.foldlM (step entities (levels + 1) expand) b

end Build

/-- **The outermost element of a document.**  Every element must be closed. -/
def Node.ofMarkup? (m : Markup) : Option Node := do
  let b ← Build.run m.entities maxEntityDepth m.tokens ⟨[], none, .empty, 0⟩
  if b.frames.isEmpty then b.root else none

end Xml
end Interchange
