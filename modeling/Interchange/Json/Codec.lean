import Interchange.Json.Printer
import Interchange.Json.Reader
/-!
# Tables as JSON
-/
namespace Interchange
namespace Json

def text (options : Options) (d : Document Scalar) : Except Error String := .ok (String.ofList (print options.pretty d))

/-- **The JSON text of a table.** -/
def write (h : Heap) (options : Options) (root : TableId) : Except Error String :=
  dialect.encode h options root >>= text options

/-- **The value that JSON octets hold**, its tables new in the heap. -/
def read (h : Heap) (input : List UInt8) : Except Error (Value × Heap) :=
  if input.isEmpty then .error .emptyInput
  else
    match parse input with
    | .ok d => .ok (d.load Scalar.value h)
    | .error fault => .error (.badSyntax .json (.json fault.cause (fault.place input)))

end Json
end Interchange
