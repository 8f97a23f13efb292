import Interchange.Yaml.Character
/-!
# Source — a text as lines, and a place in it

Indentation is counted in columns, so a text is read as lines.  Every line end but two is a line feed to a reader; the
line and paragraph separators stay what they are.
-/
namespace Interchange
namespace Yaml

/-- A line behind another, with the line end between them. -/
structure Line where
  lineEnd : Char
  text : List Char

/-- The first line of a text, and the lines behind it. -/
def splitLines : List Char → List Char × List Line
  | [] => ([], [])
  | '\r' :: '\n' :: cs =>
    let (text, below) := splitLines cs
    ([], ⟨'\n', text⟩ :: below)
  | c :: cs =>
    let (text, below) := splitLines cs
    if c == '\u2028' || c == '\u2029' then ([], ⟨c, text⟩ :: below)
    else if isBreak c then ([], ⟨'\n', text⟩ :: below)
    else (c :: text, below)

/-- **A place in a text**: the number of its line, its column, the rest of the line, and the lines below. -/
structure Cursor where
  line : Nat
  column : Nat
  text : List Char
  below : List Line

namespace Cursor

def start (cs : List Char) : Cursor :=
  let (text, below) := splitLines cs
  ⟨0, 0, text, below⟩

/-- The place on the same line where `rest` is left. -/
def moveTo (c : Cursor) (rest : List Char) : Cursor :=
  { c with column := c.column + (c.text.length - rest.length), text := rest }

/-- The place `n` characters on. -/
def skip (c : Cursor) (n : Nat) : Cursor := c.moveTo (c.text.drop n)

def size (c : Cursor) : Nat := c.below.foldl (fun n l => n + 1 + l.text.length) c.text.length

end Cursor

/-- Whether a line from some column on is the start or the end mark of a document. -/
def isDocumentMark (column : Nat) (text : List Char) : Bool :=
  column == 0 &&
    match text with
    | '-' :: '-' :: '-' :: rest => endsWord rest
    | '.' :: '.' :: '.' :: rest => endsWord rest
    | _ => false

end Yaml
end Interchange
