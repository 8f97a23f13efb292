import Interchange.Number.Reading
import Interchange.Text.Words
import Interchange.Yaml.Character
import Interchange.Yaml.Token.Basic
/-!
# Names — anchors, tags and directives

Each of these stands on one line.  Readers give what they read with the rest of the line.
-/
namespace Interchange
namespace Yaml
namespace Name

/-- A name behind `&` or `*`.  A blank or one of a few marks has to follow it. -/
def anchor? (cs : List Char) : Option (String × List Char) :=
  let (name, rest) := cs.span isWordChar
  if !name.isEmpty && (endsWord rest || rest.head?.any "?:,]\x7d%@`".toList.contains) then
    some (String.ofList name, rest)
  else none

/-! ## Tags -/

/-- A character of a tag.  Inside angle brackets it may also be one of three marks of collections. -/
def isTagChar (bracketed : Bool) (c : Char) : Bool :=
  isWordChar c || ";/?:@&=+$.%!~*'()".toList.contains c || (bracketed && ",[]".toList.contains c)

def octet? : List Char → Option (Nat × List Char)
  | '%' :: a :: b :: cs => (digitsValue? 16 [a, b]).map (·, cs)
  | _ => none

/-- The text behind `n` continuation octets of UTF-8. -/
def continuation? : (n : Nat) → List Char → Option (List Char)
  | 0, cs => some cs
  | n + 1, cs => do
    let (o, cs) ← octet? cs
    if o / 64 = 2 then continuation? n cs else none

/-- A character by the codes of its octets.  No tag with a meaning has one past ASCII, so one character stands for all of
those. -/
def escaped? (cs : List Char) : Option (Char × List Char) := do
  let (o, cs) ← octet? cs
  let n ← if o < 0x80 then some 0 else if o / 32 = 6 then some 1 else if o / 16 = 14 then some 2
    else if o / 8 = 30 then some 3 else none
  return (if o < 0x80 then Char.ofNat o else '\ufffd', ← continuation? n cs)

def tagChars? (bracketed : Bool) : (fuel : Nat) → List Char → Option (List Char × List Char)
  | 0, cs => some ([], cs)
  | _, [] => some ([], [])
  | fuel + 1, c :: cs =>
    if !isTagChar bracketed c then some ([], c :: cs)
    else do
      let (c, cs) ← if c = '%' then escaped? (c :: cs) else some (c, cs)
      let (found, cs) ← tagChars? bracketed fuel cs
      return (c :: found, cs)

/-- A part of a tag, not empty unless `mayBeEmpty`.  It reaches to the first null character in it. -/
def tagPart? (bracketed mayBeEmpty : Bool) (cs : List Char) : Option (List Char × List Char) := do
  let (found, rest) ← tagChars? bracketed cs.length cs
  if found.isEmpty && !mayBeEmpty then none else return (found.takeWhile (· != '\x00'), rest)

/-- An exclamation mark and the word behind it, to the second exclamation mark if there is one there. -/
def handle? : List Char → Option (List Char × List Char)
  | '!' :: cs =>
    let (word, rest) := cs.span isWordChar
    match rest with
    | '!' :: rest => some ('!' :: word ++ ['!'], rest)
    | rest => some ('!' :: word, rest)
  | _ => none

/-- The handle of a tag and the rest of it: written out in angle brackets, behind a handle between exclamation marks, or
behind one exclamation mark; that mark alone is a tag without a handle. -/
def tagParts? (cs : List Char) : Option ((List Char × List Char) × List Char) :=
  match cs with
  | '!' :: '<' :: cs => do
    let (rest, cs) ← tagPart? true false cs
    let cs ← strip? ['>'] cs
    return (([], rest), cs)
  | cs => do
    let (handle, cs) ← handle? cs
    if 1 < handle.length ∧ handle.getLast? = some '!' then
      let (rest, cs) ← tagPart? false false cs
      return ((handle, rest), cs)
    else
      let (rest, cs) ← tagPart? false true cs
      match handle.tail ++ rest with
      | [] => return (([], ['!']), cs)
      | rest => return ((['!'], rest), cs)

/-- **A tag.**  A blank has to follow it, or a comma in a collection in brackets. -/
def tag? (inFlow : Bool) (cs : List Char) : Option (Token × List Char) := do
  let ((handle, rest), cs) ← tagParts? cs
  if endsWord cs || (inFlow && cs.head? == some ',') then
    return (.tag (String.ofList handle) (String.ofList rest), cs)
  else none

/-! ## Directives -/

def number? (cs : List Char) : Option (Nat × List Char) :=
  let (ds, rest) := splitDigits cs
  if ds.length ≤ 9 then (digitsValue? 10 ds).map (·, rest) else none

def version? (cs : List Char) : Option (Token × List Char) := do
  let (major, cs) ← number? (cs.dropWhile isBlank)
  let (minor, cs) ← number? (← strip? ['.'] cs)
  return (.version major minor, cs)

def handleDirective? (cs : List Char) : Option (Token × List Char) := do
  let (name, cs) ← handle? (cs.dropWhile isBlank)
  if name.getLast? = some '!' ∧ cs.head?.any isBlank then
    let (start, cs) ← tagPart? true false (cs.dropWhile isBlank)
    if endsWord cs then return (.handle (String.ofList name) (String.ofList start), cs) else none
  else none

/-- **A directive** behind its percent sign, to the end of the line.  Only a comment may follow it. -/
def directive? (cs : List Char) : Option Token := do
  let (name, cs) := cs.span isWordChar
  if !endsWord cs then none
  else
    let (token, cs) ←
      if name = "YAML".toList then version? cs
      else if name = "TAG".toList then handleDirective? cs
      else none
    match cs.dropWhile isBlank with
    | [] => return token
    | c :: _ => if c = '#' then return token else none

end Name
end Yaml
end Interchange
