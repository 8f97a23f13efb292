import Interchange.Number.Reading
import Interchange.Xml.Token
/-!
# References — what stands for characters in data

A reference names a character by its code or an entity.  Entities may refer to each other ten levels deep, and a
reference in a document may lead to 255 further ones.
-/
namespace Interchange
namespace Xml

inductive Reference where
  | char (c : Char)
  | entity (name : String)

namespace Reference

def predefined? (name : List Char) : Option Char :=
  match name with
  | ['q', 'u', 'o', 't'] => some '"'
  | ['a', 'm', 'p'] => some '&'
  | ['a', 'p', 'o', 's'] => some '\''
  | ['l', 't'] => some '<'
  | ['g', 't'] => some '>'
  | _ => none

/-- The character of a code; the replacement character for a code that is no legal one. -/
def ofCode (n : Nat) : Char :=
  if n.isValidChar && isCharacter (Char.ofNat n) then Char.ofNat n else '\ufffd'

/-- A code in a radix, of at most 32 bits, up to a semicolon. -/
def code? (radix : Nat) (cs : List Char) : Option (Reference × List Char) := do
  let (digits, cs) := cs.span fun c => (digitValue? radix c).isSome
  let n ← digitsValue? radix digits
  let cs ← strip? [';'] cs
  if n < twoTo 32 then return (char (ofCode n), cs) else none

/-- **A reference** behind its ampersand, and the text after its semicolon. -/
def scan? (cs : List Char) : Option (Reference × List Char) :=
  match cs with
  | '#' :: 'x' :: cs => code? 16 cs
  | '#' :: cs => code? 10 cs
  | cs => do
    let (name, cs) ← Scan.name? cs
    let cs ← strip? [';'] cs
    match predefined? name with
    | some c => return (char c, cs)
    | none => return (entity (String.ofList name), cs)

end Reference

/-- The text of an entity; of two declarations the first counts. -/
def entityText? (entities : List Entity) (name : String) : Option (List Char) := entities.lookup name

def maxEntityDepth : Nat := 10

/-- How many references one reference of a document may lead to. -/
def maxReferences : Nat := 255

/-- The references counted so far, when one more is met with `levels` levels still free.  References of the document itself
are not counted. -/
def countReference? (levels references : Nat) : Option Nat :=
  if levels = maxEntityDepth then some references
  else if references = maxReferences then none
  else some (references + 1)

/-- The references counted when an entity is closed again: back in the document counting starts anew. -/
def recount (levels references : Nat) : Nat := if levels = maxEntityDepth then 0 else references

/-- Blanks of an attribute value: every one is a space, and the two characters of a line end are one. -/
def attributeBlank (c : Char) (next : Option Char) : List Char :=
  if c == '\r' && next == some '\n' then []
  else if c == '\n' || c == '\r' || c == '\t' then [' ']
  else [c]

/-- The characters of an attribute value, its entities expanded by `expand`.  A character written by its code is kept as it
is in the document itself; inside an entity it is data like any other, and cannot be `<`. -/
def attributeCharsWith (inDocument : Bool) (expand : String → Nat → Option (List Char × Nat)) :
    (fuel : Nat) → List Char → Nat → Option (List Char × Nat)
  | 0, _, references => some ([], references)
  | _, [], references => some ([], references)
  | fuel + 1, c :: cs, references =>
    if c ≠ '&' then do
      let (rest, references) ← attributeCharsWith inDocument expand fuel cs references
      return (attributeBlank c cs.head? ++ rest, references)
    else do
      let (reference, cs) ← Reference.scan? cs
      let (found, references) ←
        match reference with
        | .char c =>
          if inDocument then some ([c], references)
          else if c = '<' then none
          else some (attributeBlank c none, references)
        | .entity name => expand name references
      let (rest, references) ← attributeCharsWith inDocument expand fuel cs references
      return (found ++ rest, references)

/-- **The value of an attribute** with `levels` levels of entities still free, and the references counted. -/
def attributeChars (entities : List Entity) : (levels : Nat) → List Char → Nat → Option (List Char × Nat)
  | 0, raw, references =>
    attributeCharsWith (maxEntityDepth = 0) (fun _ _ => none) (raw.length + 1) raw references
  | levels + 1, raw, references =>
    let expand (name : String) (references : Nat) : Option (List Char × Nat) := do
      let text ← entityText? entities name
      let references ← countReference? (levels + 1) references
      let (value, references) ← attributeChars entities levels text references
      return (value, recount (levels + 1) references)
    attributeCharsWith (levels + 1 = maxEntityDepth) expand (raw.length + 1) raw references

/-! ## Character data -/

/-- **A character of data behind others**, the last of them first.  A carriage return waits for the next character: it is
a line feed, alone or together with one that follows. -/
def pushData (c : Char) (atEnd : Bool) : List Char → List Char
  | '\r' :: before =>
    if atEnd && c == '\r' then '\n' :: '\n' :: before
    else if c == '\n' then '\n' :: before
    else c :: '\n' :: before
  | before => if atEnd && c == '\r' then '\n' :: before else c :: before

/-- The characters of a marked section, the last first. -/
def pushAll : List Char → List Char → List Char
  | [], before => before
  | c :: cs, before => pushAll cs (pushData c cs.isEmpty before)

def cdataChars (raw : List Char) : List Char := (pushAll raw []).reverse

/-- A piece of character data: characters, or an entity among them. -/
inductive Piece where
  | chars (cs : List Char)
  | entity (name : String)

/-- **The pieces of character data.**  A character written by its code in the document itself is kept as it is, and so is
the one after it. -/
def piecesFrom (inDocument : Bool) :
    (fuel : Nat) → (before : List Char) → (keepNext : Bool) → List Char → Option (List Piece)
  | 0, before, _, _ => some [.chars before.reverse]
  | _, before, _, [] => some [.chars before.reverse]
  | fuel + 1, before, keepNext, c :: cs =>
    if c ≠ '&' then
      piecesFrom inDocument fuel (if keepNext then c :: before else pushData c cs.isEmpty before) false cs
    else do
      let (reference, cs) ← Reference.scan? cs
      match reference with
      | .char c =>
        if inDocument then piecesFrom inDocument fuel (c :: before) true cs
        else piecesFrom inDocument fuel (pushData c cs.isEmpty before) keepNext cs
      | .entity name => do
        let rest ← piecesFrom inDocument fuel [] false cs
        return .chars before.reverse :: .entity name :: rest

def pieces (inDocument : Bool) (raw : List Char) : Option (List Piece) :=
  piecesFrom inDocument (raw.length + 1) [] false raw

end Xml
end Interchange
