import Interchange.Text.Utf8
import Interchange.Yaml.Node.Expand
import Interchange.Yaml.Node.Grammar
import Interchange.Yaml.Printer
import Interchange.Yaml.Token.Scan
/-!
# Tables as YAML

The text itself is the business of a text layer, which writes documents and takes texts apart.
-/
namespace Interchange
namespace Yaml

/-- **How documents become text and text is taken apart.** -/
structure TextLayer where
  /-- The text of a document, or why it has none. -/
  emit : Document Scalar → Except String (List Char)
  parse : List UInt8 → Parsed

/-- **What octets are taken for.** -/
def parse (input : List UInt8) : Parsed :=
  match Utf8.decode? input with
  | some cs => if cs.all isAllowed then (Node.ofTokens (Token.ofText cs)).parsed else ⟨.broken, false⟩
  | none => ⟨.broken, false⟩

/-- The layer of this library; every document has a text. -/
def TextLayer.standard : TextLayer := ⟨fun d => .ok (print d), Yaml.parse⟩

def TextLayer.text (layer : TextLayer) (d : Document Scalar) : Except Error String :=
  match layer.emit d with
  | .ok cs => .ok (String.ofList cs)
  | .error reason => .error (.emit .yaml reason)

/-- **The YAML text of a table** through a text layer.  There is one layout. -/
def writeWith (layer : TextLayer) (h : Heap) (options : Options) (root : TableId) : Except Error String :=
  dialect.encode h options root >>= layer.text

/-- **The value that YAML octets hold** through a text layer, its tables new in the heap. -/
def readWith (layer : TextLayer) (h : Heap) (input : List UInt8) : Except Error (Value × Heap) :=
  if input.isEmpty then .error .emptyInput
  else
    match (layer.parse input).document with
    | .ok d => .ok (d.load Scalar.value h)
    | .error .badKey => .error .nonScalarKey
    | .error .broken => .error (.badSyntax .yaml .grammar)

end Yaml
end Interchange
