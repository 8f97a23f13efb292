import Interchange.Table.Heap
import Interchange.Text.Graphic
/-!
# Inspect — values and errors as their constructors

The diagnostic text of a value names its constructors, quotes its texts and shows the contents of its tables.
-/
namespace Interchange
namespace Inspect

def charCode (c : Char) : List Char := "\\u\x7b".toList ++ Nat.toDigits 16 c.toNat ++ ['\x7d']

/-- **A character inside quotes.**  What is not graphic is shown by an escape or by its code. -/
def quotedChar (c : Char) : List Char :=
  match c with
  | '\x00' => ['\\', '0']
  | '\t' => ['\\', 't']
  | '\n' => ['\\', 'n']
  | '\r' => ['\\', 'r']
  | '"' => ['\\', '"']
  | '\\' => ['\\', '\\']
  | c => if c.toNat < 0x20 || (0x7F ≤ c.toNat && !isGraphic c) then charCode c else [c]

def quoted (s : String) : String := String.ofList ('"' :: (s.toList.flatMap quotedChar ++ ['"']))

/-- **Doubles in diagnostics**: the fewest digits that read back, positional for exponents from -4 to 15. -/
def floatLayout : FloatLayout where
  precision := .shortest .up
  positional := some (-4, 15)
  wholePoint := true
  exponentPlus := []
  exponentWidth := 1
  infinity := "inf"
  nan := "NaN"

def bool (b : Bool) : String := if b then "true" else "false"

def number : Number → String
  | .integer i => "Integer(" ++ Number.integerText i ++ ")"
  | .float x => "Float(" ++ floatLayout.render x ++ ")"

def key : Key → String
  | .integer i => "Integer(" ++ Number.integerText i ++ ")"
  | .float x => "Float(" ++ floatLayout.render x ++ ")"
  | .string s => "String(" ++ quoted s ++ ")"
  | .bool b => "Bool(" ++ bool b ++ ")"

/-- A value, its tables shown through at most `fuel` levels. -/
def valueWithin (h : Heap) : (fuel : Nat) → Value → String
  | _, .nil => "Nil"
  | _, .bool b => "Bool(" ++ bool b ++ ")"
  | _, .number n => "Number(" ++ number n ++ ")"
  | _, .string s => "String(" ++ quoted s ++ ")"
  | _, .foreign kind handle =>
    "Opaque(Opaque \x7b type_name: " ++ quoted kind ++ ", handle: " ++ toString handle ++ " \x7d)"
  | 0, .table _ => "Table(\x7b..\x7d)"
  | fuel + 1, .table id =>
    let entries := (h.get id).entries.map fun e => key e.1 ++ ": " ++ valueWithin h fuel e.2
    "Table(\x7b" ++ ", ".intercalate entries ++ "\x7d)"

/-- **The contents of a table.**  A table that contains itself is not shown past the number of tables. -/
def table (h : Heap) (id : TableId) : String :=
  let entries := (h.get id).entries.map fun e => key e.1 ++ ": " ++ valueWithin h h.size e.2
  "\x7b" ++ ", ".intercalate entries ++ "\x7d"

def format : Format → String
  | .json => "Json"
  | .yaml => "Yaml"
  | .toml => "Toml"
  | .xml => "Xml"

def fields (constructor : String) (fs : List (String × String)) : String :=
  constructor ++ " \x7b " ++ ", ".intercalate (fs.map fun f => f.1 ++ ": " ++ f.2) ++ " \x7d"

/-- **An error with its fields.** -/
def error : Error → String
  | .emptyInput => "EmptyInput"
  | .badSyntax f reason => fields "Syntax" [("format", format f), ("reason", quoted reason.message)]
  | .cyclicStructure => "CyclicStructure"
  | .keyType found => fields "KeyType" [("found", quoted found)]
  | .nonStringKey f found => fields "NonStringKey" [("format", format f), ("found", quoted found)]
  | .nonScalarKey => "NonScalarKey"
  | .unsupportedValueType f found => fields "UnsupportedValueType" [("format", format f), ("found", quoted found)]
  | .binaryUnsupported => "BinaryUnsupported"
  | .tagMissing => "TagMissing"
  | .attrKeyType found => fields "AttrKeyType" [("found", quoted found)]
  | .attrValueType found => fields "AttrValueType" [("found", quoted found)]
  | .childrenType found => fields "ChildrenType" [("found", quoted found)]
  | .fieldType field expected found =>
    fields "FieldType" [("field", quoted field), ("expected", quoted expected), ("found", quoted found)]
  | .typeMismatch expected found => fields "TypeMismatch" [("expected", quoted expected), ("found", quoted found)]
  | .depthLimitExceeded limit => fields "DepthLimitExceeded" [("limit", toString limit)]
  | .emit f reason => fields "Emit" [("format", format f), ("reason", quoted reason)]
  | .unknownFormat name => "UnknownFormat(" ++ quoted name ++ ")"

end Inspect
end Interchange
