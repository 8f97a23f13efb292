import Interchange.Xml.Element
import Interchange.Xml.Node
/-!
# Naming — elements with their names written out

A record has no namespaces: names are written with a label again, and the bindings that an element adds to those of its
parent become attributes in front of its own.
-/
namespace Interchange
namespace Xml

namespace Scope

/-- **The label for a namespace**: that of the first binding of it, which may be the default. -/
def labelOf? (scope : Scope) (uri : String) : Option String :=
  if uri = xmlUri then some "xml" else (scope.find? (·.uri == uri)).bind Binding.label

def write (scope : Scope) (name : ExpandedName) : String :=
  match name.space.bind scope.labelOf? with
  | some label => if label.isEmpty then name.base else label ++ ":" ++ name.base
  | none => name.base

end Scope

def Binding.attribute (b : Binding) : String × String :=
  match b.label with
  | some label => ("xmlns:" ++ label, b.uri)
  | none => ("xmlns", b.uri)

/-- The bindings of a scope that are not already those outside it. -/
def introduced (outer scope : Scope) : Scope := scope.filter fun b => !(outer.contains b)

mutual

/-- **The element of a node** inside the bindings of its parent. -/
def Element.ofNode (outer : Scope) : Node → Element
  | .mk name attributes scope text children =>
    .mk (scope.write name)
      ((introduced outer scope).map Binding.attribute ++ attributes.map fun a => (scope.write a.1, a.2))
      (String.ofList text) (Element.ofNodes scope children)

def Element.ofNodes (outer : Scope) : List Node → List Element
  | [] => []
  | n :: ns => Element.ofNode outer n :: Element.ofNodes outer ns

end

end Xml
end Interchange
