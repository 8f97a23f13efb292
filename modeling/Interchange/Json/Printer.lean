import Interchange.Json.Scalar
/-!
# Printing JSON

Compact text has no blanks.  Readable text puts every item on a line of its own, indented by two blanks a level, and
keeps an empty array or object in two characters.
-/
namespace Interchange
namespace Json

/-- **Doubles in JSON**: the fewest digits that read back, positional for exponents from -5 to 15. -/
def floatLayout : FloatLayout where
  precision := .shortest .toEven
  positional := some (-5, 15)
  wholePoint := true
  exponentPlus := ['+']
  exponentWidth := 1
  infinity := "null"
  nan := "null"

def hexDigit (n : Nat) : Char := Nat.digitChar n

/-- **A character inside quotes.**  Quotes, backslashes and control characters are escaped, and nothing else is. -/
def escapeChar (c : Char) : List Char :=
  match c with
  | '"' => ['\\', '"']
  | '\\' => ['\\', '\\']
  | '\x08' => ['\\', 'b']
  | '\t' => ['\\', 't']
  | '\n' => ['\\', 'n']
  | '\x0c' => ['\\', 'f']
  | '\r' => ['\\', 'r']
  | c => if c.toNat < 0x20 then ['\\', 'u', '0', '0', hexDigit (c.toNat / 16), hexDigit (c.toNat % 16)] else [c]

def quote (s : String) : List Char := '"' :: (s.toList.flatMap escapeChar ++ ['"'])

def Scalar.text : Scalar → List Char
  | null => "null".toList
  | bool true => "true".toList
  | bool false => "false".toList
  | integer i => (Number.integerText i).toList
  | float x => (floatLayout.render x).toList
  | string s => quote s

/-- A new line at a level; nothing in compact text. -/
def lineBreak (pretty : Bool) (level : Nat) : List Char :=
  if pretty then '\n' :: List.replicate (2 * level) ' ' else []

def colon (pretty : Bool) : List Char := if pretty then [':', ' '] else [':']

mutual

def render (pretty : Bool) (level : Nat) : Document Scalar → List Char
  | .scalar a => a.text
  | .list [] => ['[', ']']
  | .list (d :: ds) =>
    '[' :: (lineBreak pretty (level + 1) ++ render pretty (level + 1) d ++ renderItems pretty (level + 1) ds)
      ++ lineBreak pretty level ++ [']']
  | .dict [] => ['\x7b', '\x7d']
  | .dict ((name, d) :: ds) =>
    '\x7b' :: (lineBreak pretty (level + 1) ++ quote name ++ colon pretty ++ render pretty (level + 1) d
      ++ renderMembers pretty (level + 1) ds)
      ++ lineBreak pretty level ++ ['\x7d']

/-- The items after the first, each behind a comma. -/
def renderItems (pretty : Bool) (level : Nat) : List (Document Scalar) → List Char
  | [] => []
  | d :: ds => ',' :: (lineBreak pretty level ++ render pretty level d ++ renderItems pretty level ds)

/-- The members after the first, each behind a comma. -/
def renderMembers (pretty : Bool) (level : Nat) : List (String × Document Scalar) → List Char
  | [] => []
  | (name, d) :: ds =>
    ',' :: (lineBreak pretty level ++ quote name ++ colon pretty ++ render pretty level d
      ++ renderMembers pretty level ds)

end

/-- **The text of a document.** -/
def print (pretty : Bool) (d : Document Scalar) : List Char := render pretty 0 d

end Json
end Interchange
