import Interchange.Xml.Element
/-!
# Printing elements

Every element stands on lines of its own, indented by one tab a level.  An element without text and children is one
empty-element tag; text follows the start tag at once.
-/
namespace Interchange
namespace Xml

/-- **A character of data.**  The five characters that markup is made of are written as entities. -/
def escapeChar (c : Char) : List Char :=
  match c with
  | '&' => ['&', 'a', 'm', 'p', ';']
  | '<' => ['&', 'l', 't', ';']
  | '>' => ['&', 'g', 't', ';']
  | '"' => ['&', 'q', 'u', 'o', 't', ';']
  | '\'' => ['&', 'a', 'p', 'o', 's', ';']
  | c => [c]

def escape (s : String) : List Char := s.toList.flatMap escapeChar

def attributeText (a : String × String) : List Char := ' ' :: a.1.toList ++ '=' :: '"' :: escape a.2 ++ ['"']

def indent (level : Nat) : List Char := List.replicate level '\t'

def openTag (e : Element) : List Char := '<' :: e.tag.toList ++ e.attributes.flatMap attributeText

mutual

def render (level : Nat) : Element → List Char
  | .mk tag attributes text children =>
    let start := indent level ++ openTag (.mk tag attributes text children)
    let close := '<' :: '/' :: tag.toList ++ ['>', '\n']
    if children.isEmpty then
      if text.isEmpty then start ++ ['/', '>', '\n'] else start ++ '>' :: escape text ++ close
    else start ++ '>' :: escape text ++ '\n' :: renderAll (level + 1) children ++ indent level ++ close

def renderAll (level : Nat) : List Element → List Char
  | [] => []
  | e :: es => render level e ++ renderAll level es

end

/-- **The text of an element.** -/
def print (e : Element) : List Char := render 0 e

end Xml
end Interchange
