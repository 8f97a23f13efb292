import Interchange.Xml.Naming
import Interchange.Xml.Printer
/-!
# Element records as XML
-/
namespace Interchange
namespace Xml

/-- **The XML text of an element record.**  There is one layout. -/
def write (h : Heap) (options : Options) (root : TableId) : Except Error String := do
  let e ← Element.ofRecord h options root
  return String.ofList (print e)

/-- **The element record that XML octets hold**, its tables new in the heap. -/
def read (h : Heap) (input : List UInt8) : Except Error (Value × Heap) :=
  if input.isEmpty then .error .emptyInput
  else
    match Utf8.decode input with
    | .error (index, fault) => .error (.badSyntax .xml (.utf8 index fault))
    | .ok cs =>
      match (Markup.ofText? cs).bind Node.ofMarkup? with
      | some n =>
        let (id, h) := (Element.ofNode [] n).load h
        .ok (.table id, h)
      | none => .error (.badSyntax .xml .grammar)

end Xml
end Interchange
