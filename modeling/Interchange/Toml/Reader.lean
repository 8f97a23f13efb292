import Interchange.Toml.Numeral
import Interchange.Toml.Tree
import Interchange.Toml.Unquote
/-!
# Reading TOML

A document is read into blocks, each a header with the assignments under it, and these are added up to a tree.  Readers
give what they read with the text after it.
-/
namespace Interchange
namespace Toml
namespace Read

open Unquote (isBlank isLineChar newline?)

def skipBlanks (cs : List Char) : List Char := cs.dropWhile isBlank

/-- The text behind a comment, if there is one. -/
def skipComment : List Char → List Char
  | '#' :: cs => cs.dropWhile isLineChar
  | cs => cs

/-- The text behind the end of a line, up to which there are only blanks and a comment. -/
def lineEnd? (cs : List Char) : Option (List Char) :=
  match skipComment (skipBlanks cs) with
  | [] => some []
  | cs => newline? cs

/-- **The text behind blanks, line ends and comments.**  A comment has to end before the text does. -/
def skipLines? : (inComment : Bool) → List Char → Option (List Char)
  | inComment, [] => if inComment then none else some []
  | _, '\n' :: cs => skipLines? false cs
  | _, '\r' :: '\n' :: cs => skipLines? false cs
  | true, c :: cs => if isLineChar c then skipLines? true cs else none
  | false, c :: cs =>
    if isBlank c then skipLines? false cs else if c = '#' then skipLines? true cs else some (c :: cs)

/-! ## Keys -/

/-- The parts of a dotted key, among blanks. -/
def keyParts? : (fuel : Nat) → List Char → Option (List String × List Char)
  | 0, _ => none
  | fuel + 1, cs => do
    let (part, cs) ← Unquote.key? (skipBlanks cs)
    match skipBlanks cs with
    | '.' :: cs =>
      let (parts, cs) ← keyParts? fuel cs
      return (String.ofList part :: parts, cs)
    | cs => return ([String.ofList part], cs)

def maxLevels : Nat := 79

/-- **A dotted key**: the parts before the last, and the last. -/
def key? (cs : List Char) : Option ((List String × String) × List Char) := do
  let (parts, cs) ← keyParts? (cs.length + 1) cs
  let name ← parts.getLast?
  if parts.length ≤ maxLevels then return ((parts.dropLast, name), cs) else none

/-! ## Values -/

def quantity? (cs : List Char) : Option (Scalar × List Char) :=
  match Moment.read? .strict cs with
  | some (m, cs) => some (.moment m, cs)
  | none => Numeral.read? cs

/-- The scalar that a text starts with, by its first character. -/
def scalar? (cs : List Char) : Option (Scalar × List Char) :=
  match cs with
  | [] => none
  | c :: _ =>
    if c = '"' ∨ c = '\'' then (Unquote.read? cs).map fun (s, cs) => (.string (String.ofList s), cs)
    else if c = 't' then (strip? "true".toList cs).map fun cs => (.bool true, cs)
    else if c = 'f' then (strip? "false".toList cs).map fun cs => (.bool false, cs)
    else quantity? cs

/-- The items of an array, given how one is read.  A comma may follow the last. -/
def items? (value : List Char → Option (Document Scalar × List Char)) :
    (fuel : Nat) → List Char → Option (List (Document Scalar) × List Char)
  | 0, _ => none
  | fuel + 1, cs => do
    match ← skipLines? false cs with
    | ']' :: cs => return ([], cs)
    | cs =>
      let (d, cs) ← value cs
      match ← skipLines? false cs with
      | ',' :: cs =>
        let (ds, cs) ← items? value fuel cs
        return (d :: ds, cs)
      | ']' :: cs => return ([d], cs)
      | _ => none

/-- An assignment, given how a value is read. -/
def assignment? (value : List Char → Option (Document Scalar × List Char)) (cs : List Char) :
    Option (Assignment × List Char) := do
  let ((path, name), cs) ← key? cs
  let cs ← strip? ['='] cs
  let (d, cs) ← value (skipBlanks cs)
  return (⟨path, name, d⟩, cs)

/-- The assignments of an inline table, at least one, given how a value is read. -/
def assignments? (value : List Char → Option (Document Scalar × List Char)) :
    (fuel : Nat) → List Char → Option (List Assignment × List Char)
  | 0, _ => none
  | fuel + 1, cs => do
    let (a, cs) ← assignment? value cs
    match skipBlanks cs with
    | ',' :: cs =>
      let (as, cs) ← assignments? value fuel cs
      return (a :: as, cs)
    | '\x7d' :: cs => return ([a], cs)
    | _ => none

/-- An inline table behind its brace, given how a value is read.  It stands on one line. -/
def inlineTable? (value : List Char → Option (Document Scalar × List Char)) (cs : List Char) :
    Option (Document Scalar × List Char) :=
  match skipBlanks cs with
  | '\x7d' :: cs => some (.dict [], cs)
  | cs => do
    let (as, cs) ← assignments? value (cs.length + 1) cs
    let b ← Branch.assignAll [] as
    return (.dict (membersDocument b), cs)

/-- **A value**, inside which `room` more levels may open. -/
def value? (room : Nat) (cs : List Char) : Option (Document Scalar × List Char) :=
  match room, cs with
  | 0, '[' :: _ => none
  | 0, '\x7b' :: _ => none
  | room + 1, '[' :: cs => (items? (value? room) (cs.length + 1) cs).map fun (ds, cs) => (.list ds, cs)
  | room + 1, '\x7b' :: cs => inlineTable? (value? room) cs
  | _, cs => (scalar? cs).map fun (a, cs) => (.scalar a, cs)

/-! ## Statements -/

inductive Statement where
  | header (path : List String) (name : String) (isItem : Bool)
  | assignment (a : Assignment)

def header? (cs : List Char) : Option (Statement × List Char) :=
  match cs with
  | '[' :: cs => do
    let ((path, name), cs) ← key? cs
    return (.header path name true, ← strip? [']', ']'] cs)
  | cs => do
    let ((path, name), cs) ← key? cs
    return (.header path name false, ← strip? [']'] cs)

def statement? : List Char → Option (Statement × List Char)
  | '[' :: cs => header? cs
  | cs => (assignment? (value? maxLevels) cs).map fun (a, cs) => (.assignment a, cs)

def isBare : List Char → Bool
  | [] => true
  | c :: _ => c == '#' || c == '\n' || c == '\r'

/-- The statements of a document, each on a line of its own. -/
def statements? : (fuel : Nat) → List Char → Option (List Statement)
  | 0, _ => none
  | fuel + 1, cs =>
    match skipBlanks cs with
    | [] => some []
    | cs =>
      if isBare cs then (lineEnd? cs).bind (statements? fuel)
      else do
        let (s, cs) ← statement? cs
        let cs ← lineEnd? cs
        return s :: (← statements? fuel cs)

/-- Statements as the assignments before the first header, and the blocks from there on. -/
def blocks : List Statement → List Assignment × List Block
  | [] => ([], [])
  | .assignment a :: ss =>
    let (as, bs) := blocks ss
    (a :: as, bs)
  | .header path name isItem :: ss =>
    let (as, bs) := blocks ss
    ([], ⟨path, name, isItem, as⟩ :: bs)

end Read

/-- **The document table that a text holds.**  A byte order mark in front means nothing. -/
def parse? (cs : List Char) : Option Members := do
  let cs := (strip? ['\ufeff'] cs).getD cs
  let ss ← Read.statements? (cs.length + 1) cs
  let (as, bs) := Read.blocks ss
  let root ← Branch.assignAll [] as
  let root ← Branch.defineAll root bs
  unmaskMembers (membersDocument root)

end Toml
end Interchange
