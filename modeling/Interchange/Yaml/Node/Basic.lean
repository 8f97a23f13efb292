/-!
# Nodes

The tree of a text, with its anchors and aliases.  A text that breaks a rule still has a tree: it is broken where the
rule is broken, and nothing follows that place.
-/
namespace Interchange
namespace Yaml

/-- A tree whose nodes may have names, and may stand for the node with a name. -/
inductive Node (ρ : Type) where
  | scalar (anchor : Option ρ) (tag : Option String) (text : List Char) (isPlain : Bool)
  | sequence (anchor : Option ρ) (tag : Option String) (items : List (Node ρ))
  | mapping (anchor : Option ρ) (tag : Option String) (members : List (Node ρ × Node ρ))
  | alias (target : ρ)
  | broken

def Node.empty {ρ : Type} : Node ρ := .scalar none none [] true

/-- The tree of a text, and whether the text is nothing but one whole document. -/
structure Stream (ρ : Type) where
  root : Option (Node ρ)
  isWhole : Bool

end Yaml
end Interchange
