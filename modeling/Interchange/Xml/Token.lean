import Interchange.Text.Words
import Interchange.Xml.Character
/-!
# Tokens — the markup of a document

A document is scanned into the tags and texts of its content and the entities it declares.  Texts and attribute values
are kept as they stand, references unresolved.  Comments and processing instructions leave nothing.  Scanning gives what
was found and the text after it, or nothing where the text is not markup.
-/
namespace Interchange
namespace Xml

/-- A name with an optional label in front of a colon. -/
structure QName where
  label : String
  base : String
deriving DecidableEq, Repr

/-- How a start tag ends: with a mark that the element is empty, without one, or not at all, when the text ends first. -/
inductive TagEnd where
  | empty
  | opening
  | missing
deriving DecidableEq, Repr

inductive Token where
  | start (name : QName) (attributes : List (QName × List Char)) (ending : TagEnd)
  | finish (name : QName)
  | text (raw : List Char)
  | cdata (raw : List Char)

/-- A declared entity: its name and its text. -/
abbrev Entity := String × List Char

namespace Scan

def skipSpaces (cs : List Char) : List Char := cs.dropWhile isSpace

def spaces? : List Char → Option (List Char)
  | [] => none
  | c :: cs => if isSpace c then some (skipSpaces cs) else none

/-- **Characters up to a place** where the rest of the text is as asked, all of them legal.  The end of the text is such a
place too. -/
def charsUntil (stop : List Char → Bool) : List Char → Option (List Char × List Char)
  | [] => some ([], [])
  | c :: cs =>
    if !isCharacter c then none
    else if stop (c :: cs) then some ([], c :: cs)
    else (charsUntil stop cs).map fun (found, rest) => (c :: found, rest)

def quote? : List Char → Option (Char × List Char)
  | '"' :: cs => some ('"', cs)
  | '\'' :: cs => some ('\'', cs)
  | _ => none

def contains (word : List Char) : List Char → Bool
  | [] => word.isEmpty
  | c :: cs => startsWith word (c :: cs) || contains word cs

def name? : List Char → Option (List Char × List Char)
  | [] => none
  | c :: cs =>
    if isNameStart c then
      let (found, rest) := cs.span isNameChar
      some (c :: found, rest)
    else none

/-- **A name with at most one colon**, both sides starting as names do; the side before it may be empty. -/
def qname? (cs : List Char) : Option (QName × List Char) :=
  let (found, rest) := cs.span isNameChar
  let (label, base) :=
    match found.span (· != ':') with
    | (base, []) => ([], base)
    | (label, _ :: base) => (label, base)
  if base.contains ':' || !(label.head?.all isNameStart) || !(base.head?.any isNameStart) then none
  else some (⟨String.ofList label, String.ofList base⟩, rest)

def equals? (cs : List Char) : Option (List Char) := (strip? ['='] (skipSpaces cs)).map skipSpaces

def attributeValue? (cs : List Char) : Option (List Char × List Char) := do
  let (quote, cs) ← quote? cs
  let (value, cs) ← charsUntil (fun cs => cs.head? == some quote || cs.head? == some '<') cs
  let cs ← strip? [quote] cs
  return (value, cs)

def attribute? (cs : List Char) : Option ((QName × List Char) × List Char) := do
  let (name, cs) ← qname? cs
  let cs ← equals? cs
  let (value, cs) ← attributeValue? cs
  return ((name, value), cs)

/-- The text behind a comment.  Two hyphens only end it. -/
def comment? (cs : List Char) : Option (List Char) := do
  let cs ← strip? "<!--".toList cs
  let (text, cs) ← charsUntil (startsWith "-->".toList) cs
  let cs ← strip? "-->".toList cs
  if contains "--".toList text || text.getLast? == some '-' then none else return cs

/-- The text behind a processing instruction.  A declaration of the version is none. -/
def instruction? (cs : List Char) : Option (List Char) := do
  if startsWith "<?xml ".toList cs then none
  else
    let cs ← strip? "<?".toList cs
    let (_, cs) ← name? cs
    let (_, cs) ← charsUntil (startsWith "?>".toList) (skipSpaces cs)
    strip? "?>".toList cs

/-- The text behind comments, instructions and blanks. -/
def misc : (fuel : Nat) → List Char → Option (List Char)
  | 0, cs => some cs
  | fuel + 1, cs =>
    let cs := skipSpaces cs
    if startsWith "<!--".toList cs then (comment? cs).bind (misc fuel)
    else if startsWith "<?".toList cs then (instruction? cs).bind (misc fuel)
    else some cs

/-! ## The document type -/

/-- The text behind blanks, which are needed before anything but the end of a declaration. -/
def declarationSpaces? (cs : List Char) : Option (List Char) :=
  match cs with
  | [] => some []
  | c :: _ => if isSpace c then some (skipSpaces cs) else if startsWith "?>".toList cs then some cs else none

/-- The text behind one of the optional parts of a declaration. -/
def declarationPart? (name : List Char) (cs : List Char) : Option (List Char) :=
  if startsWith name cs then (attribute? cs).bind fun (_, cs) => declarationSpaces? cs else some cs

def declaration? (cs : List Char) : Option (List Char) := do
  let cs ← strip? "<?xml".toList cs
  let cs ← declarationSpaces? cs
  if !startsWith "version".toList cs then none
  else
    let (_, cs) ← attribute? cs
    let cs ← declarationSpaces? cs
    let cs ← declarationPart? "encoding".toList cs
    let cs ← if startsWith "standalone".toList cs then (attribute? cs).map Prod.snd else some cs
    strip? "?>".toList (skipSpaces cs)

def literal? (cs : List Char) : Option (List Char × List Char) := do
  let (quote, cs) ← quote? cs
  let (value, cs) := cs.span (· != quote)
  let cs ← strip? [quote] cs
  return (value, cs)

/-- The text behind the place of something external; `none` inside when nothing of the kind is there. -/
def externalId? (cs : List Char) : Option (Option (List Char)) :=
  match strip? "SYSTEM".toList cs, strip? "PUBLIC".toList cs with
  | some cs, _ => do
    let (_, cs) ← literal? (← spaces? cs)
    return some cs
  | _, some cs => do
    let (_, cs) ← literal? (← spaces? cs)
    let (_, cs) ← literal? (← spaces? cs)
    return some cs
  | none, none => some none

/-- The definition of an entity, if it is a text, and the text behind it. -/
def entityDefinition? (isGeneral : Bool) (cs : List Char) : Option (Option (List Char) × List Char) :=
  match cs with
  | [] => none
  | c :: _ =>
    if c = '"' ∨ c = '\'' then do
      let (value, cs) ← literal? cs
      return (some value, cs)
    else do
      let cs ← (← externalId? cs)
      let rest := skipSpaces cs
      match isGeneral, strip? "NDATA".toList rest with
      | true, some cs => do
        let (_, cs) ← name? (← spaces? cs)
        return (none, cs)
      | true, none => return (none, rest)
      | false, _ => return (none, cs)

def entity? (cs : List Char) : Option (List Entity × List Char) := do
  let cs ← spaces? cs
  let (isGeneral, cs) ←
    match strip? ['%'] cs with
    | some cs => (spaces? cs).map fun cs => (false, cs)
    | none => some (true, cs)
  let (name, cs) ← name? cs
  let (definition, cs) ← entityDefinition? isGeneral (← spaces? cs)
  let cs ← strip? ['>'] (skipSpaces cs)
  return ((definition.toList.map fun d => (String.ofList name, d)), cs)

def otherDeclaration? (cs : List Char) : Option (List Char) := strip? ['>'] (cs.dropWhile (· != '>'))

/-- The declarations inside a document type, up to its end. -/
def declarations : (fuel : Nat) → List Char → Option (List Entity × List Char)
  | 0, _ => none
  | fuel + 1, cs =>
    let cs := skipSpaces cs
    let silent (rest : Option (List Char)) : Option (List Entity × List Char) := rest.bind (declarations fuel)
    match cs with
    | [] => some ([], [])
    | ']' :: cs => (strip? ['>'] (skipSpaces cs)).map fun cs => ([], cs)
    | cs =>
      match strip? "<!ENTITY".toList cs with
      | some cs => do
        let (es, cs) ← entity? cs
        let (es', cs) ← declarations fuel cs
        return (es ++ es', cs)
      | none =>
        if startsWith "<!--".toList cs then silent (comment? cs)
        else if startsWith "<?".toList cs then silent (instruction? cs)
        else if startsWith "<!ELEMENT".toList cs || startsWith "<!ATTLIST".toList cs
            || startsWith "<!NOTATION".toList cs then silent (otherDeclaration? cs)
        else none

/-- **The document type**: the entities it declares. -/
def docType? (cs : List Char) : Option (List Entity × List Char) := do
  let cs ← strip? "<!DOCTYPE".toList cs
  let (_, cs) ← name? (← spaces? cs)
  let cs := skipSpaces cs
  let cs := skipSpaces ((← externalId? cs).getD cs)
  match cs with
  | '>' :: cs => return ([], cs)
  | '[' :: cs => declarations (cs.length + 1) cs
  | _ => none

/-! ## Content -/

/-- The attributes of a start tag and its end.  Every attribute needs a blank before it; the text may end behind the name
or an attribute, but not behind a blank. -/
def tagRest? : (fuel : Nat) → List Char → Option ((List (QName × List Char) × TagEnd) × List Char)
  | 0, _ => none
  | _, [] => some (([], .missing), [])
  | fuel + 1, cs =>
    match skipSpaces cs with
    | '/' :: '>' :: cs => some (([], .empty), cs)
    | '>' :: cs => some (([], .opening), cs)
    | rest =>
      if !(cs.head?.any isSpace) then none
      else do
        let (a, cs) ← attribute? rest
        let ((as, ending), cs) ← tagRest? fuel cs
        return ((a :: as, ending), cs)

def startTag? (cs : List Char) : Option ((QName × List (QName × List Char) × TagEnd) × List Char) := do
  let cs ← strip? ['<'] cs
  let (name, cs) ← qname? cs
  let ((attributes, ending), cs) ← tagRest? (cs.length + 1) cs
  return ((name, attributes, ending), cs)

def endTag? (cs : List Char) : Option (QName × List Char) := do
  let cs ← strip? "</".toList cs
  let (name, cs) ← qname? cs
  let cs ← strip? ['>'] (skipSpaces cs)
  return (name, cs)

/-- Character data up to the next markup; the end of a marked section may not stand in it. -/
def text? (cs : List Char) : Option (List Char × List Char) := do
  let (text, rest) ← charsUntil (·.head? == some '<') cs
  if contains "]]>".toList text then none else return (text, rest)

def cdata? (cs : List Char) : Option (List Char × List Char) := do
  let cs ← strip? "<![CDATA[".toList cs
  let (text, cs) ← charsUntil (startsWith "]]>".toList) cs
  let cs ← strip? "]]>".toList cs
  return (text, cs)

/-- **The content of `depth` open elements.**  It ends behind the end tag of the outermost one, or with the text. -/
def content : (fuel depth : Nat) → List Char → Option (List Token × List Char)
  | 0, _, cs => some ([], cs)
  | _, 0, cs => some ([], cs)
  | _, _, [] => some ([], [])
  | fuel + 1, depth + 1, cs =>
    let more (t : List Token) (depth : Nat) (cs : List Char) : Option (List Token × List Char) :=
      (content fuel depth cs).map fun (ts, cs) => (t ++ ts, cs)
    match cs with
    | '<' :: '!' :: _ =>
      if startsWith "<!--".toList cs then (comment? cs).bind (more [] (depth + 1))
      else (cdata? cs).bind fun (t, cs) => more [.cdata t] (depth + 1) cs
    | '<' :: '?' :: _ => (instruction? cs).bind (more [] (depth + 1))
    | '<' :: '/' :: _ => (endTag? cs).bind fun (name, cs) => more [.finish name] depth cs
    | '<' :: _ =>
      (startTag? cs).bind fun ((name, attributes, ending), cs) =>
        more [.start name attributes ending] (if ending = .empty then depth + 1 else depth + 2) cs
    | _ => (text? cs).bind fun (t, cs) => more [.text t] (depth + 1) cs

/-- The outermost element, if there is one. -/
def rootContent (cs : List Char) : Option (List Token × List Char) :=
  match cs with
  | '<' :: _ => do
    let ((name, attributes, ending), cs) ← startTag? cs
    let (ts, cs) ← content (cs.length + 1) (if ending = .empty then 0 else 1) cs
    return (.start name attributes ending :: ts, cs)
  | cs => some ([], cs)

end Scan

/-- What scanning a document gives. -/
structure Markup where
  entities : List Entity
  tokens : List Token

/-- **The markup of a document**: a byte order mark, the version, the document type and one element, each but the last
optional, among comments, instructions and blanks. -/
def Markup.ofText? (cs : List Char) : Option Markup := do
  let cs := (strip? ['\ufeff'] cs).getD cs
  let cs ← if startsWith "<?xml ".toList cs then Scan.declaration? cs else some cs
  let cs ← Scan.misc (cs.length + 1) cs
  let (entities, cs) ← if startsWith "<!DOCTYPE".toList cs then Scan.docType? cs else some ([], cs)
  let cs ← Scan.misc (cs.length + 1) cs
  let (tokens, cs) ← Scan.rootContent cs
  let cs ← Scan.misc (cs.length + 1) cs
  if cs.isEmpty then return ⟨entities, tokens⟩ else none

def Token.ofEntity? (cs : List Char) : Option (List Token) := (Scan.content (cs.length + 1) 1 cs).map Prod.fst

end Xml
end Interchange
