import Interchange.Number.Reading
import Interchange.Yaml.Token.Flowing
/-!
# Block text — literal and folded scalars

The lines of a block are those that are indented far enough, and the empty lines among and behind them.  A literal block
keeps its lines; a folded one joins those that do not start with a blank.
-/
namespace Interchange
namespace Yaml

/-- What becomes of the line ends behind the last line. -/
inductive Chomp where
  | strip
  | clip
  | keep
deriving DecidableEq, Repr

/-- How a block is written: its chomping, and its indentation if that is given. -/
structure BlockHeader where
  chomp : Chomp
  indent : Option Nat

namespace BlockHeader

def chomp? : List Char → Option (Chomp × List Char)
  | '+' :: cs => some (.keep, cs)
  | '-' :: cs => some (.strip, cs)
  | _ => none

/-- An indentation is one figure and not zero; the figure zero is refused. -/
def indent? : List Char → Option (Option Nat × List Char)
  | [] => some (none, [])
  | c :: cs => if c = '0' then none else if isDigit c then some (some (c.toNat - 48), cs) else some (none, c :: cs)

/-- The marks of a block, in either order. -/
def marks? (cs : List Char) : Option (BlockHeader × List Char) :=
  match chomp? cs with
  | some (chomp, cs) => (indent? cs).map fun (indent, cs) => (⟨chomp, indent⟩, cs)
  | none =>
    (indent? cs).map fun (indent, cs) =>
      match indent, chomp? cs with
      | some n, some (chomp, cs) => (⟨chomp, some n⟩, cs)
      | indent, _ => (⟨.clip, indent⟩, cs)

/-- **The header of a block** behind its indicator: nothing but a comment may follow it on its line. -/
def read? (cs : List Char) : Option BlockHeader := do
  let (header, cs) ← marks? cs
  match cs.dropWhile isBlank with
  | [] => return header
  | c :: _ => if c = '#' then return header else none

end BlockHeader

/-- A line of a block, and the line ends in front of it.  The first of these ends the line before. -/
structure BlockLine where
  ends : List Char
  text : List Char

/-- **The indentation of a block**: that of its first line that is not empty, but at least `least` and that of every empty
line before it.  A tab may not stand in it. -/
def detectIndent? (least : Nat) : List Line → Option Nat
  | [] => some least
  | l :: below =>
    let n := (l.text.takeWhile isSpace).length
    match l.text.drop n with
    | [] => if below.isEmpty then some (max least n) else detectIndent? (max least n) below
    | c :: _ => if c = '\t' then none else some (max least n)

/-- **The lines of a block**, the line ends behind the last, and the place behind them. -/
def blockLines? (indent : Nat) :
    (ends : List Char) → (line column : Nat) → List Line → Option (List BlockLine × List Char × Cursor)
  | ends, line, column, [] => some ([], ends, ⟨line, column, [], []⟩)
  | ends, line, _, l :: below =>
    let ends := ends ++ [l.lineEnd]
    let n := ((l.text.take indent).takeWhile isSpace).length
    let text := l.text.drop n
    if n < indent && text.head? == some '\t' then none
    else if text.isEmpty && !below.isEmpty then blockLines? indent ends (line + 1) 0 below
    else if n == indent && !text.isEmpty then
      (blockLines? indent [] (line + 1) l.text.length below).map fun (ls, r) => (⟨ends, text⟩ :: ls, r)
    else some ([], ends, ⟨line + 1, n, text, below⟩)

def isMoreIndented (text : List Char) : Bool := text.head?.any isBlank

/-- The lines behind the first, folded or not; `before` says that the line in front starts with a blank. -/
def joinBlock (folded : Bool) : (before : Bool) → List BlockLine → List Char
  | _, [] => []
  | before, l :: ls =>
    let joint := if folded && !before && !isMoreIndented l.text then fold l.ends else l.ends
    joint ++ l.text ++ joinBlock folded (isMoreIndented l.text) ls

/-- **The text of a block** from its lines and the line ends behind them.  The line end of the header is not part of it. -/
def blockText (folded : Bool) (chomp : Chomp) (lines : List BlockLine) (ends : List Char) : List Char :=
  match lines, chomp with
  | [], .keep => ends.tail
  | [], _ => []
  | l :: ls, chomp =>
    l.ends.tail ++ l.text ++ joinBlock folded (isMoreIndented l.text) ls
      ++ match chomp with
        | .strip => []
        | .clip => ends.take 1
        | .keep => ends

/-- **A block scalar** behind its indicator, inside a collection that leaves `margin` columns. -/
def block? (folded : Bool) (margin : Nat) (c : Cursor) : Option (List Char × Cursor) := do
  let header ← BlockHeader.read? c.text
  let indent ←
    match header.indent with
    | some n => some (margin - 1 + n)
    | none => detectIndent? (max margin 1) c.below
  let (lines, ends, c) ← blockLines? indent [] c.line (c.column + c.text.length) c.below
  return (blockText folded header.chomp lines ends, c)

end Yaml
end Interchange
