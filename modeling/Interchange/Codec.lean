import Interchange.Json.Codec
import Interchange.Toml.Codec
import Interchange.Xml.Codec
import Interchange.Yaml.Codec
/-!
# Tables in every format
-/
namespace Interchange

/-- The text layers of the formats that have one. -/
structure TextLayers where
  yaml : Yaml.TextLayer
  toml : Toml.TextLayer

def TextLayers.standard : TextLayers := ⟨.standard, .standard⟩

namespace Format

/-- **The text of a table** in a format, through text layers. -/
def writeWith (layers : TextLayers) (format : Format) (h : Heap) (options : Options) (root : TableId) :
    Except Error String :=
  match format with
  | json => Json.write h options root
  | yaml => Yaml.writeWith layers.yaml h options root
  | toml => Toml.writeWith layers.toml h options root
  | xml => Xml.write h options root

/-- **The value that octets hold** in a format, through text layers. -/
def readWith (layers : TextLayers) (format : Format) (h : Heap) (input : List UInt8) : Except Error (Value × Heap) :=
  match format with
  | json => Json.read h input
  | yaml => Yaml.readWith layers.yaml h input
  | toml => Toml.readWith layers.toml h input
  | xml => Xml.read h input

def write : Format → Heap → Options → TableId → Except Error String := writeWith .standard

def read : Format → Heap → List UInt8 → Except Error (Value × Heap) := readWith .standard

/-- The format with a name, or the error that there is none. -/
def ofName (name : String) : Except Error Format :=
  match ofName? name with
  | some f => .ok f
  | none => .error (.unknownFormat name)

end Format
end Interchange
