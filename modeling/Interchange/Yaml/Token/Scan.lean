import Interchange.Yaml.Token.Block
import Interchange.Yaml.Token.Name
/-!
# Scan — the tokens of a text

A key is known by the colon behind it, so its token is put in front of what was read since it might have started.  Tokens
therefore wait in a queue as long as a key may start at the first of them.  A text that breaks a rule still has the
tokens that were handed out before.
-/
namespace Interchange
namespace Yaml

/-- A place where a key may have started. -/
structure KeyStart where
  /-- The number of tokens before it. -/
  number : Nat
  /-- Whether nothing but a key can stand there. -/
  required : Bool
  line : Nat
  column : Nat

/-- **What is known between two tokens.** -/
structure Scan where
  cursor : Cursor
  /-- For each open block collection the columns up to its indentation, the innermost first. -/
  margins : List Nat
  /-- Whether a key may start here. -/
  mayStartKey : Bool
  /-- The key that may have started in the innermost collection in brackets, or outside of any. -/
  keyStart : Option KeyStart
  /-- The same for what is around it, a place for each bracket. -/
  outerStarts : List (Option KeyStart)
  /-- Tokens that wait. -/
  queue : List Token
  /-- The number of tokens handed out. -/
  handedOut : Nat

namespace Scan

def start (cs : List Char) : Scan where
  cursor := .start cs
  margins := []
  mayStartKey := true
  keyStart := none
  outerStarts := []
  queue := []
  handedOut := 0

def inFlow (s : Scan) : Bool := !s.outerStarts.isEmpty

def margin (s : Scan) : Nat := s.margins.head?.getD 0

def emit (s : Scan) (t : Token) : Scan := { s with queue := s.queue ++ [t] }

/-! ## Keys -/

/-- A key has to end on its line, and within 1024 characters. -/
def isStale (c : Cursor) (k : KeyStart) : Bool := k.line < c.line || k.column + 1024 < c.column

/-- Forget a key that can no longer be one; nothing is right if it has to be one. -/
def refresh? (c : Cursor) : Option KeyStart → Option (Option KeyStart)
  | none => some none
  | some k => if !isStale c k then some (some k) else if k.required then none else some none

def refreshAll? (c : Cursor) : List (Option KeyStart) → Option (List (Option KeyStart))
  | [] => some []
  | k :: ks => do return (← refresh? c k) :: (← refreshAll? c ks)

def dropStale? (s : Scan) : Option Scan := do
  return { s with
    keyStart := ← refresh? s.cursor s.keyStart
    outerStarts := ← refreshAll? s.cursor s.outerStarts }

/-- Forget the innermost key, unless it has to be one. -/
def dropKey? (s : Scan) : Option Scan :=
  match s.keyStart with
  | none => some s
  | some k => if k.required then none else some { s with keyStart := none }

/-- **A key may start here**, if one may at all.  It has to where a member of a block mapping starts. -/
def saveKey? (s : Scan) : Option Scan :=
  if !s.mayStartKey then some s
  else
    s.dropKey?.map fun s =>
      { s with
        keyStart := some {
          number := s.handedOut + s.queue.length
          required := !s.inFlow && s.margin == s.cursor.column + 1
          line := s.cursor.line
          column := s.cursor.column } }

/-! ## Indentation -/

/-- **Close the block collections that are indented more than `margin`.**  Inside brackets indentation means nothing. -/
def unroll (s : Scan) (margin : Nat) : Scan :=
  if s.inFlow then s
  else
    let (closed, margins) := s.margins.span (margin < ·)
    { s with margins, queue := s.queue ++ closed.map fun _ => .blockEnd }

/-- **Tokens at a place in the queue**, behind the start of a block collection if its indentation is new. -/
def openBlock (s : Scan) (column place : Nat) (t : Token) (behind : List Token) : Scan :=
  let isNew := !s.inFlow && s.margin ≤ column
  { s with
    margins := if isNew then (column + 1) :: s.margins else s.margins
    queue := s.queue.take place ++ (if isNew then [t] else []) ++ behind ++ s.queue.drop place }

/-! ## Blanks -/

def skipMark (column : Nat) (text : List Char) : Nat × List Char :=
  match column, text with
  | 0, '\ufeff' :: text => (1, text)
  | column, text => (column, text)

/-- **The next token's place**, behind blanks, comments and line ends, and whether a key may start there.  A tab is no
indentation. -/
def nextPlace (inFlow : Bool) : (mayStartKey : Bool) → (line column : Nat) → (text : List Char) → List Line → Cursor × Bool
  | mayStartKey, line, column, text, below =>
    let (column, text) := skipMark column text
    let rest := text.dropWhile fun c => isSpace c || (c == '\t' && (inFlow || !mayStartKey))
    if rest.head?.all (· == '#') then
      match below with
      | [] => (⟨line, column + text.length, [], []⟩, mayStartKey)
      | l :: below => nextPlace inFlow (mayStartKey || !inFlow) (line + 1) 0 l.text below
    else ((⟨line, column, text, below⟩ : Cursor).moveTo rest, mayStartKey)

def toNext (s : Scan) : Scan :=
  let c := s.cursor
  let (cursor, mayStartKey) := nextPlace s.inFlow s.mayStartKey c.line c.column c.text c.below
  { s with cursor, mayStartKey }

/-! ## Tokens -/

/-- A token of `n` characters. -/
def take (s : Scan) (n : Nat) (t : Token) : Scan := { s.emit t with cursor := s.cursor.skip n }

def takeFrom (s : Scan) (r : Option (Token × List Char)) : Option Scan :=
  r.map fun (t, rest) => { s.emit t with cursor := s.cursor.moveTo rest }

/-- The end of the text, as if it were a line of its own. -/
def takeEnd? (s : Scan) : Option Scan := do
  let c := s.cursor
  let cursor := if c.column = 0 then c else { c with line := c.line + 1, column := 0 }
  let s ← ({ s with cursor }.unroll 0).dropKey?
  return { s.emit .textEnd with mayStartKey := false }

/-- A mark of a document, which closes all block collections. -/
def takeDocumentMark? (s : Scan) (t : Token) : Option Scan := do
  let s ← (s.unroll 0).dropKey?
  return { s.take 3 t with mayStartKey := false }

def takeDirective? (s : Scan) : Option Scan := do
  let s ← (s.unroll 0).dropKey?
  let t ← Name.directive? (s.cursor.text.drop 1)
  return { s.emit t with cursor := s.cursor.moveTo [], mayStartKey := false }

/-- An opening bracket, which may itself start a key. -/
def takeOpen? (s : Scan) (t : Token) : Option Scan := do
  let s ← s.saveKey?
  return { s.take 1 t with mayStartKey := true, keyStart := none, outerStarts := s.keyStart :: s.outerStarts }

def takeClose? (s : Scan) (t : Token) : Option Scan := do
  let s ← s.dropKey?
  let s := { s.take 1 t with mayStartKey := false }
  match s.outerStarts with
  | [] => return s
  | k :: ks => return { s with keyStart := k, outerStarts := ks }

def takeComma? (s : Scan) : Option Scan := do
  let s ← s.dropKey?
  return { s.take 1 .comma with mayStartKey := true }

/-- A hyphen.  In brackets it is left for the grammar to refuse. -/
def takeHyphen? (s : Scan) : Option Scan := do
  if !s.inFlow && !s.mayStartKey then none
  else
    let s ← (s.openBlock s.cursor.column s.queue.length .blockSequence []).dropKey?
    return { s.take 1 .hyphen with mayStartKey := true }

def takeKey? (s : Scan) : Option Scan := do
  if !s.inFlow && !s.mayStartKey then none
  else
    let s ← (s.openBlock s.cursor.column s.queue.length .blockMapping []).dropKey?
    return { s.take 1 .key with mayStartKey := !s.inFlow }

/-- **A colon**: the key that may have started is one.  Without one the value stands alone. -/
def takeValue? (s : Scan) : Option Scan :=
  match s.keyStart with
  | some k =>
    let s := s.openBlock k.column (k.number - s.handedOut) .blockMapping [.key]
    some { s.take 1 .value with keyStart := none, mayStartKey := false }
  | none =>
    if !s.inFlow && !s.mayStartKey then none
    else
      let s := s.openBlock s.cursor.column s.queue.length .blockMapping []
      some { s.take 1 .value with mayStartKey := !s.inFlow }

def takeName? (s : Scan) (t : String → Token) : Option Scan := do
  let s ← s.saveKey?
  { s with mayStartKey := false }.takeFrom ((Name.anchor? (s.cursor.text.drop 1)).map fun (name, rest) => (t name, rest))

def takeTag? (s : Scan) : Option Scan := do
  let s ← s.saveKey?
  { s with mayStartKey := false }.takeFrom (Name.tag? s.inFlow s.cursor.text)

def takeBlock? (s : Scan) (folded : Bool) : Option Scan := do
  let s ← s.dropKey?
  let (text, cursor) ← block? folded s.margin (s.cursor.skip 1)
  return { s.emit (.scalar text false) with cursor, mayStartKey := true }

def takeQuoted? (s : Scan) (read : List Char → List Char → Option (List Char × QuotedEnd)) : Option Scan := do
  let s ← s.saveKey?
  let (text, cursor) ← quoted read (s.cursor.skip 1)
  return { s.emit (.scalar text false) with cursor, mayStartKey := false }

def takePlain? (s : Scan) : Option Scan := do
  let s ← s.saveKey?
  let (text, cursor, crossed) ← plain s.inFlow s.margin s.cursor
  return { s.emit (.scalar text true) with cursor, mayStartKey := crossed }

/-- Whether a plain scalar may start with a character before others. -/
def startsPlain (inFlow : Bool) (c : Char) (rest : List Char) : Bool :=
  if c == '-' then !endsWord rest
  else if c == '?' || c == ':' then !inFlow && !endsWord rest
  else !isBlankOrBreak c && !(",[]\x7b\x7d#&*!|>'\"%@`".toList.contains c)

/-- **The next token**, with the block collections that end before it. -/
def fetch? (s : Scan) : Option Scan := do
  let s ← s.toNext.dropStale?
  let s := s.unroll (s.cursor.column + 1)
  match s.cursor.text with
  | [] => s.takeEnd?
  | c :: rest =>
    if s.cursor.column == 0 && c == '%' then s.takeDirective?
    else if isDocumentMark s.cursor.column (c :: rest) then
      s.takeDocumentMark? (if c == '-' then .documentStart else .documentEnd)
    else
      match c with
      | '[' => s.takeOpen? .openBracket
      | '\x7b' => s.takeOpen? .openBrace
      | ']' => s.takeClose? .closeBracket
      | '\x7d' => s.takeClose? .closeBrace
      | ',' => s.takeComma?
      | '*' => s.takeName? .alias
      | '&' => s.takeName? .anchor
      | '!' => s.takeTag?
      | '\'' => s.takeQuoted? singleLine?
      | '"' => s.takeQuoted? doubleLine?
      | c =>
        if c == '-' && endsWord rest then s.takeHyphen?
        else if c == '?' && (s.inFlow || endsWord rest) then s.takeKey?
        else if c == ':' && (s.inFlow || endsWord rest) then s.takeValue?
        else if c == '|' && !s.inFlow then s.takeBlock? false
        else if c == '>' && !s.inFlow then s.takeBlock? true
        else if startsPlain s.inFlow c rest then s.takePlain?
        else none

/-- How many tokens of the queue stand before any that a key may start at. -/
def ready (s : Scan) : Nat :=
  (s.keyStart :: s.outerStarts).foldl
    (fun n k => match k with | none => n | some k => min n (k.number - s.handedOut)) s.queue.length

/-- **Hand out the tokens that are ready.** -/
def handOut? (s : Scan) : Option (List Token × Scan) := do
  let s ← s.dropStale?
  let n := s.ready
  return (s.queue.take n, { s with queue := s.queue.drop n, handedOut := s.handedOut + n })

/-- The tokens from here on, at most `fuel` steps of them. -/
def tokens : (fuel : Nat) → Scan → List Token
  | 0, _ => []
  | fuel + 1, s =>
    match s.fetch?.bind handOut? with
    | none => []
    | some (ts, s) => if ts.contains .textEnd then ts else ts ++ tokens fuel s

end Scan

/-- **The tokens of a text**, up to the first that cannot be read; the last one says that all of them were. -/
def Token.ofText (cs : List Char) : List Token :=
  let s := Scan.start cs
  s.tokens (s.cursor.size + 2)

end Yaml
end Interchange
