import Interchange.Text.Utf8
import Interchange.Toml.Printer
import Interchange.Toml.Reader
/-!
# Tables as TOML

The text itself is the business of a text layer, which writes the members of a document and reads them again.
-/
namespace Interchange
namespace Toml

/-- **How members become text and text becomes members.** -/
structure TextLayer where
  /-- The text of a document, laid out for reading or not, or why it has none. -/
  emit : (pretty : Bool) → Members → Except String (List Char)
  parse? : List Char → Option Members

/-- The layer of this library; every document has a text. -/
def TextLayer.standard : TextLayer := ⟨fun pretty members => .ok (print pretty members), Toml.parse?⟩

def TextLayer.text (layer : TextLayer) (options : Options) (members : Members) : Except Error String :=
  match layer.emit options.pretty members with
  | .ok cs => .ok (String.ofList cs)
  | .error reason => .error (.emit .toml reason)

/-- **The TOML text of a table** through a text layer.  A document is a table whatever its shape. -/
def writeWith (layer : TextLayer) (h : Heap) (options : Options) (root : TableId) : Except Error String :=
  dialect.encodeMapping h options root >>= layer.text options

/-- **The table that TOML octets hold** through a text layer, it and its tables new in the heap. -/
def readWith (layer : TextLayer) (h : Heap) (input : List UInt8) : Except Error (Value × Heap) :=
  if input.isEmpty then .error .emptyInput
  else
    match Utf8.decode input with
    | .error (index, fault) => .error (.badSyntax .toml (.utf8 index fault))
    | .ok cs =>
      match layer.parse? cs with
      | some members => .ok ((Document.dict members).load Scalar.value h)
      | none => .error (.badSyntax .toml .grammar)

end Toml
end Interchange
