import Interchange.Toml.Quoted
import Interchange.Toml.Scalar
/-!
# Printing TOML

The scalars and arrays of a table come first, then its tables and arrays of tables, each under a header of its own and
each part in order.  A table inside an array that also holds other things is written inline.
-/
namespace Interchange
namespace Toml

/-- **Doubles in TOML**: the fewest digits that read back, never in scientific notation. -/
def floatLayout : FloatLayout where
  precision := .shortest .up
  positional := none
  wholePoint := true
  exponentPlus := []
  exponentWidth := 1
  infinity := "inf"
  nan := "nan"

def Scalar.text : Scalar → List Char
  | bool true => "true".toList
  | bool false => "false".toList
  | integer i => (Number.integerText i).toList
  | float x => (floatLayout.render x).toList
  | string s => quote s
  | moment m => m.text

def isTable : Document Scalar → Bool
  | .dict _ => true
  | _ => false

/-- An array of nothing but tables, and of at least one. -/
def isTableArray : Document Scalar → Bool
  | .list items => !items.isEmpty && items.all isTable
  | _ => false

/-! ## Values -/

mutual

/-- A document on the right of an equals sign.  Readable arrays of more than one item have a line for each. -/
def renderValue (pretty : Bool) : Document Scalar → List Char
  | .scalar a => a.text
  | .list [] => ['[', ']']
  | .list [d] => '[' :: renderValue pretty d ++ [']']
  | .list (d :: ds) =>
    if pretty then '[' :: "\n    ".toList ++ renderValue pretty d ++ renderItems pretty ds ++ [',', '\n', ']']
    else '[' :: renderValue pretty d ++ renderItems pretty ds ++ [']']
  | .dict [] => ['\x7b', '\x7d']
  | .dict ((name, d) :: ms) =>
    '\x7b' :: ' ' :: keyText name ++ [' ', '=', ' '] ++ renderValue pretty d ++ renderInline pretty ms ++ [' ', '\x7d']

/-- The items after the first, each behind a comma. -/
def renderItems (pretty : Bool) : List (Document Scalar) → List Char
  | [] => []
  | d :: ds =>
    (if pretty then ",\n    ".toList else [',', ' ']) ++ renderValue pretty d ++ renderItems pretty ds

/-- The members of an inline table after the first, each behind a comma. -/
def renderInline (pretty : Bool) : Members → List Char
  | [] => []
  | (name, d) :: ms => ',' :: ' ' :: keyText name ++ [' ', '=', ' '] ++ renderValue pretty d ++ renderInline pretty ms

end

/-! ## Tables -/

def isInBody (d : Document Scalar) : Bool := !isTable d && !isTableArray d

/-- The body of a table: a line for each member that is not under a header. -/
def renderBody (pretty : Bool) : Members → List Char
  | [] => []
  | (name, d) :: ms =>
    (if isInBody d then keyText name ++ [' ', '=', ' '] ++ renderValue pretty d ++ ['\n'] else [])
      ++ renderBody pretty ms

def pathText (path : List String) : List Char := ['.'].intercalate (path.map keyText)

/-- The header of a table, or of one table of an array. -/
def header (path : List String) (isItem : Bool) : List Char :=
  if isItem then ['[', '['] ++ pathText path ++ [']', ']', '\n'] else '[' :: pathText path ++ [']', '\n']

/-- Whether a table has its own header: an item of an array always, any other unless its members are all under headers
of their own. -/
def hasHeader (isItem : Bool) (ms : Members) : Bool := isItem || ms.isEmpty || ms.any fun m => isInBody m.2

mutual

/-- The blocks of a document under a path, each a header and a body; a body belongs to the table before it. -/
def blocks (pretty : Bool) (path : List String) (isItem : Bool) : Document Scalar → List (List Char)
  | .dict members =>
    (if hasHeader isItem members then [header path isItem ++ renderBody pretty members] else [])
      ++ memberBlocks pretty path members
  | _ => []

/-- The blocks of the members of a table that are under headers. -/
def memberBlocks (pretty : Bool) (path : List String) : Members → List (List Char)
  | [] => []
  | (name, d) :: ms =>
    (match d with
      | .dict members => blocks pretty (path ++ [name]) false (.dict members)
      | .list items => if isTableArray (.list items) then itemBlocks pretty (path ++ [name]) items else []
      | .scalar _ => [])
      ++ memberBlocks pretty path ms

def itemBlocks (pretty : Bool) (path : List String) : List (Document Scalar) → List (List Char)
  | [] => []
  | d :: ds => blocks pretty path true d ++ itemBlocks pretty path ds

end

/-- **The text of a document table**: the body of the root, then its blocks, with an empty line between any two. -/
def print (pretty : Bool) (root : Members) : List Char :=
  let body := renderBody pretty root
  ['\n'].intercalate ((if body.isEmpty then [] else [body]) ++ memberBlocks pretty [] root)

end Toml
end Interchange
