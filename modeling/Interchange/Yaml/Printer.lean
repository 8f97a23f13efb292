import Interchange.Yaml.Style
/-!
# Printing YAML

Every item and every member starts a line; an item starts with a hyphen.  The items of a sequence inside a mapping are
not indented further than the mapping.  A name that is long or has line ends is written behind a question mark.
-/
namespace Interchange
namespace Yaml

/-- **Doubles in YAML**: the fewest digits that read back, positional for exponents from -5 to 15. -/
def floatLayout : FloatLayout where
  precision := .shortest .toEven
  positional := some (-5, 15)
  wholePoint := true
  exponentPlus := []
  exponentWidth := 1
  infinity := ".inf"
  nan := ".nan"

def textLine (n : Nat) (cs : List Char) : List Char :=
  let style := Style.ofText cs
  style.write n cs ++ if style.endsLine cs then [] else ['\n']

/-- A scalar to the end of its line, further lines indented by `n`. -/
def scalarLine (n : Nat) : Scalar → List Char
  | .null => "null\n".toList
  | .bool true => "true\n".toList
  | .bool false => "false\n".toList
  | .integer i => (Number.integerText i).toList ++ ['\n']
  | .float x => (floatLayout.render x).toList ++ ['\n']
  | .string s => textLine n s.toList

def maxSimpleKey : Nat := 128

def isSimpleKey (s : String) : Bool := !s.toList.any isBreak && s.utf8ByteSize ≤ maxSimpleKey

/-- A name in a mapping indented by `n`, up to the colon. -/
def nameText (n : Nat) (name : String) : List Char :=
  if isSimpleKey name then (Style.ofText name.toList).write (n + 2) name.toList ++ [':']
  else '?' :: ' ' :: textLine (n + 2) name.toList ++ spaces n ++ [':']

/-- What a document stands behind, in a collection indented by `n`. -/
inductive Place where
  /-- A hyphen, or a colon on a line of its own: a collection starts on the same line. -/
  | mark
  /-- A name on the same line: a collection starts on the next line. -/
  | name
deriving DecidableEq, Repr

def Place.ofName (name : String) : Place := if isSimpleKey name then .name else .mark

def Place.listIndent (n : Nat) : Place → Nat
  | mark => n + 2
  | name => n

/-- What stands before a collection that is indented by `m`. -/
def Place.lead (m : Nat) : Place → List Char
  | mark => [' ']
  | name => '\n' :: spaces m

mutual

/-- A document behind a mark or a name, in a collection indented by `n`. -/
def render (n : Nat) (place : Place) : Document Scalar → List Char
  | .scalar a => ' ' :: scalarLine (n + 2) a
  | .list [] => " []\n".toList
  | .list (d :: ds) =>
    let m := place.listIndent n
    place.lead m ++ '-' :: render m .mark d ++ renderItems m ds
  | .dict [] => " \x7b\x7d\n".toList
  | .dict ((name, d) :: ms) =>
    place.lead (n + 2) ++ nameText (n + 2) name ++ render (n + 2) (.ofName name) d ++ renderMembers (n + 2) ms

/-- The items of a sequence indented by `n`, each on lines of its own. -/
def renderItems (n : Nat) : List (Document Scalar) → List Char
  | [] => []
  | d :: ds => spaces n ++ '-' :: render n .mark d ++ renderItems n ds

/-- The members of a mapping indented by `n`, each on lines of its own. -/
def renderMembers (n : Nat) : Members → List Char
  | [] => []
  | (name, d) :: ms => spaces n ++ nameText n name ++ render n (.ofName name) d ++ renderMembers n ms

end

/-- **The text of a document.** -/
def print : Document Scalar → List Char
  | .scalar a => scalarLine 2 a
  | .list [] => "[]\n".toList
  | .list items => renderItems 0 items
  | .dict [] => "\x7b\x7d\n".toList
  | .dict members => renderMembers 0 members

end Yaml
end Interchange
