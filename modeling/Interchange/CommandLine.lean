import Interchange.Conversion
import Interchange.Table.Inspect
/-!
# The command line — convert a document, or show the formats

With two format names the input is converted from the one to the other.  Without arguments an example is shown in every
format.
-/
namespace Interchange

/-- What a run leaves behind. -/
structure Run where
  code : Nat
  output : String
  errors : String
deriving DecidableEq, Repr

namespace CommandLine

def success (output : String) : Run := ⟨0, output, ""⟩

/-- A run that failed, with the text of its error. -/
def failure (error : String) : Run := ⟨1, "", "Error: " ++ error ++ "\n"⟩

/-- **Convert a document**, laid out for reading. -/
def convert (source target : Format) (input : List UInt8) : Run :=
  match source.read .empty input with
  | .error e => failure (Inspect.error e)
  | .ok (.table id, h) =>
    match target.write h .readable id with
    | .ok text => success text
    | .error e => failure (Inspect.error e)
  | .ok (v, _) =>
    failure (Inspect.quoted (source.name ++ " document is a " ++ v.typeName ++ ", not a table"))

def member (name : String) (v : Value) : Key × Value := (.string name, v)

def text (s : String) : Value := .string s

def integer (n : Nat) : Value := .integer (Int64.ofNat n)

def service : TableId × Heap :=
  let (ports, h) := Heap.empty.alloc (.ofValues [integer 8080, integer 8443])
  let (labels, h) := h.alloc (.ofPairs [member "team" (text "storage"), member "tier" (text "backend")])
  h.alloc (.ofPairs [member "name" (text "inventory"), member "replicas" (integer 3),
    member "ports" (.table ports), member "labels" (.table labels)])

def element : TableId × Heap :=
  let (attr, h) := Heap.empty.alloc (.ofPairs [member "name" (text "inventory")])
  let port (n : Nat) : Table := .ofPairs [member "tag" (text "port"), member "text" (integer n)]
  let (first, h) := h.alloc (port 8080)
  let (second, h) := h.alloc (port 8443)
  let (children, h) := h.alloc (.ofValues [.table first, .table second])
  h.alloc (.ofPairs [member "tag" (text "service"), member "attr" (.table attr), member "children" (.table children)])

/-- An example under the name of its format; an error goes to the other stream. -/
def panel (format : Format) (options : Options) (sample : TableId × Heap) (ending : String) : Run :=
  match format.write sample.2 options sample.1 with
  | .ok text => success (format.name ++ ":\n" ++ text ++ ending)
  | .error e => ⟨0, "", format.name ++ ": " ++ e.message ++ "\n"⟩

/-- **The examples in every format.** -/
def showcase : Run :=
  let runs := [panel .json .readable service "\n\n", panel .yaml .readable service "\n\n",
    panel .toml .readable service "\n\n", panel .xml .default element "\n"]
  ⟨0, String.join (runs.map Run.output), String.join (runs.map Run.errors)⟩

/-- **A run of the program.**  The name of the source is judged before that of the target, and both before the input. -/
def run (args : List String) (input : List UInt8) : Run :=
  match args with
  | [] => showcase
  | [source, target] =>
    match Format.ofName source, Format.ofName target with
    | .ok source, .ok target => convert source target input
    | .error e, _ => failure (Inspect.error e)
    | _, .error e => failure (Inspect.error e)
  | _ => failure (Inspect.quoted "usage: convert <from> <to>")

end CommandLine
end Interchange
