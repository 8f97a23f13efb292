import Interchange.Number.Reading
import Interchange.Yaml.Source
/-!
# Flowing text — plain and quoted scalars

A text that flows over lines is folded: blanks around a line end are dropped, and the line end is a space, or, if empty
lines follow it, these stand for it.
-/
namespace Interchange
namespace Yaml

/-- **What line ends between two words become.** -/
def fold : List Char → List Char
  | ['\n'] => [' ']
  | '\n' :: more => more
  | ends => ends

def push {α : Type} (cs : List Char) (r : List Char × α) : List Char × α := (cs ++ r.1, r.2)

/-! ## Plain text -/

/-- Whether a colon would stand between a word and the mark of a collection. -/
def isGluedColon (inFlow : Bool) : List Char → Bool
  | ':' :: c :: _ => inFlow && (isFlowMark c || c == '?')
  | _ => false

def endsPlain (inFlow : Bool) : List Char → Bool
  | [] => true
  | c :: cs => (c == ':' && endsWord cs) || (inFlow && isFlowMark c)

/-- **Plain text on one line**, behind blanks that are pending.  It ends at a mark or at a comment. -/
def plainLine? (inFlow : Bool) : (pending : List Char) → List Char → Option (List Char × List Char)
  | _, [] => some ([], [])
  | pending, c :: cs =>
    if isBlank c then plainLine? inFlow (pending ++ [c]) cs
    else if isGluedColon inFlow (c :: cs) then none
    else if endsPlain inFlow (c :: cs) || (c == '#' && !pending.isEmpty) then some ([], c :: cs)
    else (plainLine? inFlow [] cs).map (push (pending ++ [c]))

/-- A flowing text, where it ends, and whether that is on a line below its last word. -/
abbrev PlainEnd := List Char × Cursor × Bool

/-- **Plain text on the lines below**, behind line ends that are pending.  A line of block text needs `margin` blanks, and
no tab among them. -/
def plainBelow? (inFlow : Bool) (margin : Nat) :
    (pending : List Char) → (line column : Nat) → List Line → Option PlainEnd
  | pending, line, column, [] => some ([], ⟨line, column, [], []⟩, !pending.isEmpty)
  | pending, line, _, l :: below =>
    let pending := pending ++ [l.lineEnd]
    let blanks := l.text.takeWhile isBlank
    let text := l.text.dropWhile isBlank
    let here : Cursor := ⟨line + 1, blanks.length, text, below⟩
    if (blanks.take margin).contains '\t' then none
    else if text.isEmpty then plainBelow? inFlow margin pending (line + 1) blanks.length below
    else if (!inFlow && blanks.length < margin) || isDocumentMark blanks.length text || text.head? == some '#' then
      some ([], here, true)
    else
      match plainLine? inFlow [] text with
      | none => none
      | some ([], _) => some ([], here, true)
      | some (words, []) =>
        (plainBelow? inFlow margin [] (line + 1) l.text.length below).map (push (fold pending ++ words))
      | some (words, rest) => some (fold pending ++ words, here.moveTo rest, false)

/-- **A plain scalar.** -/
def plain (inFlow : Bool) (margin : Nat) (c : Cursor) : Option PlainEnd :=
  match plainLine? inFlow [] c.text with
  | none => none
  | some (words, []) =>
    (plainBelow? inFlow margin [] c.line (c.column + c.text.length) c.below).map (push words)
  | some (words, rest) => some (words, c.moveTo rest, false)

/-! ## Quoted text -/

/-- What a line of quoted text ends with. -/
inductive QuotedEnd where
  | closed (rest : List Char)
  /-- The line ends before the text does; it may end in a backslash. -/
  | unclosed (escaped : Bool)

/-- A line of text in single quotes, behind blanks that are pending. -/
def singleLine? : (pending : List Char) → List Char → Option (List Char × QuotedEnd)
  | _, [] => some ([], .unclosed false)
  | pending, '\'' :: '\'' :: cs => (singleLine? [] cs).map (push (pending ++ ['\'']))
  | pending, '\'' :: cs => some (pending, .closed cs)
  | pending, c :: cs =>
    if isBlank c then singleLine? (pending ++ [c]) cs else (singleLine? [] cs).map (push (pending ++ [c]))

def code? (ds : List Char) : Option Char :=
  (digitsValue? 16 ds).bind fun n => if n.isValidChar then some (Char.ofNat n) else none

def escape? : Char → Option Char
  | '0' => some '\x00'
  | 'a' => some '\x07'
  | 'b' => some '\x08'
  | 't' => some '\t'
  | '\t' => some '\t'
  | 'n' => some '\n'
  | 'v' => some '\x0b'
  | 'f' => some '\x0c'
  | 'r' => some '\r'
  | 'e' => some '\x1b'
  | ' ' => some ' '
  | '"' => some '"'
  | '/' => some '/'
  | '\\' => some '\\'
  | 'N' => some '\x85'
  | '_' => some '\xa0'
  | 'L' => some '\u2028'
  | 'P' => some '\u2029'
  | _ => none

/-- A line of text in double quotes, behind blanks that are pending. -/
def doubleLine? : (pending : List Char) → List Char → Option (List Char × QuotedEnd)
  | _, [] => some ([], .unclosed false)
  | pending, '"' :: cs => some (pending, .closed cs)
  | pending, ['\\'] => some (pending, .unclosed true)
  | pending, '\\' :: 'x' :: a :: b :: cs => do
    return push (pending ++ [← code? [a, b]]) (← doubleLine? [] cs)
  | pending, '\\' :: 'u' :: a :: b :: c :: d :: cs => do
    return push (pending ++ [← code? [a, b, c, d]]) (← doubleLine? [] cs)
  | pending, '\\' :: 'U' :: a :: b :: c :: d :: e :: f :: g :: h :: cs => do
    return push (pending ++ [← code? [a, b, c, d, e, f, g, h]]) (← doubleLine? [] cs)
  | pending, '\\' :: c :: cs => do return push (pending ++ [← escape? c]) (← doubleLine? [] cs)
  | pending, c :: cs =>
    if isBlank c then doubleLine? (pending ++ [c]) cs else (doubleLine? [] cs).map (push (pending ++ [c]))

/-- **Quoted text on the lines below**, behind line ends that are pending; the first of these may be escaped, and then it
is dropped.  Quoted text ends before the document does. -/
def quotedBelow? (read : List Char → List Char → Option (List Char × QuotedEnd)) :
    (escaped : Bool) → (pending : List Char) → (line : Nat) → List Line → Option (List Char × Cursor)
  | _, _, _, [] => none
  | escaped, pending, line, l :: below =>
    let pending := pending ++ [l.lineEnd]
    let blanks := l.text.takeWhile isBlank
    let text := l.text.dropWhile isBlank
    let here : Cursor := ⟨line + 1, blanks.length, text, below⟩
    let joint := if escaped then pending.tail else fold pending
    if text.isEmpty then quotedBelow? read escaped pending (line + 1) below
    else if isDocumentMark blanks.length text then none
    else
      match read [] text with
      | none => none
      | some (words, .closed rest) => some (joint ++ words, here.moveTo rest)
      | some (words, .unclosed escaped) =>
        (quotedBelow? read escaped [] (line + 1) below).map (push (joint ++ words))

/-- **A quoted scalar** behind its quote, given how a line is read. -/
def quoted (read : List Char → List Char → Option (List Char × QuotedEnd)) (c : Cursor) :
    Option (List Char × Cursor) :=
  match read [] c.text with
  | none => none
  | some (words, .closed rest) => some (words, c.moveTo rest)
  | some (words, .unclosed escaped) => (quotedBelow? read escaped [] c.line c.below).map (push words)

end Yaml
end Interchange
