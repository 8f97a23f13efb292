/-!
# Quoted — how TOML writes texts and keys

A text is written in the first of six styles that suits it, the plain ones before those that need escapes.  A key has
fewer styles, for it stands on one line.
-/
namespace Interchange
namespace Toml

/-- The longest run of a character in a text, behind a run of `run` of them. -/
def longestRunFrom (q : Char) : (run : Nat) → List Char → Nat
  | run, [] => run
  | run, c :: cs => if c == q then longestRunFrom q (run + 1) cs else max run (longestRunFrom q 0 cs)

/-- **The longest run of a character** in a text. -/
def longestRun (q : Char) (cs : List Char) : Nat := longestRunFrom q 0 cs

def isControl (c : Char) : Bool := (c.toNat < 0x20 && c != '\t' && c != '\n') || c.toNat == 0x7F

/-- The styles of a text. -/
inductive Style where
  | basic
  | literal
  | basicLines
  | literalLines
deriving DecidableEq, Repr

def Style.isPlainFor (style : Style) (cs : List Char) : Bool :=
  !(cs.any isControl) &&
    match style with
    | .basic => !cs.contains '\\' && !cs.contains '"' && !cs.contains '\n'
    | .literal => !cs.contains '\'' && !cs.contains '\n'
    | .basicLines => !cs.contains '\\' && longestRun '"' cs ≤ 2
    | .literalLines => longestRun '\'' cs ≤ 2

/-- **The style of a text**: the first that is plain for it, else one with escapes, on lines if it has line feeds. -/
def Style.ofText (cs : List Char) : Style :=
  match [basic, literal, basicLines, literalLines].find? (·.isPlainFor cs) with
  | some style => style
  | none => if cs.contains '\n' then basicLines else basic

def hexDigit (n : Nat) : Char := if n < 10 then Char.ofNat (48 + n) else Char.ofNat (55 + n)

def codeEscape (c : Char) : List Char :=
  ['\\', 'u', hexDigit (c.toNat / 0x1000 % 16), hexDigit (c.toNat / 0x100 % 16), hexDigit (c.toNat / 16 % 16),
    hexDigit (c.toNat % 16)]

/-- **A text with escapes.**  As many quotes in a row as `free` stand as they are; `run` of them do already. -/
def escape (onLines : Bool) (free : Nat) : (run : Nat) → List Char → List Char
  | _, [] => []
  | run, c :: cs =>
    match c with
    | '"' => if run < free then c :: escape onLines free (run + 1) cs else '\\' :: c :: escape onLines free 0 cs
    | '\x08' => '\\' :: 'b' :: escape onLines free 0 cs
    | '\t' => '\\' :: 't' :: escape onLines free 0 cs
    | '\n' => (if onLines then ['\n'] else ['\\', 'n']) ++ escape onLines free 0 cs
    | '\x0c' => '\\' :: 'f' :: escape onLines free 0 cs
    | '\r' => '\\' :: 'r' :: escape onLines free 0 cs
    | '\\' => '\\' :: '\\' :: escape onLines free 0 cs
    | c => (if isControl c then codeEscape c else [c]) ++ escape onLines free 0 cs

def leadingLine (cs : List Char) : List Char := if cs.contains '\n' then ['\n'] else []

def Style.write (style : Style) (cs : List Char) : List Char :=
  match style with
  | basic => '"' :: escape false 0 0 cs ++ ['"']
  | literal => '\'' :: cs ++ ['\'']
  | basicLines => ['"', '"', '"'] ++ leadingLine cs ++ escape true 2 0 cs ++ ['"', '"', '"']
  | literalLines => ['\'', '\'', '\''] ++ leadingLine cs ++ cs ++ ['\'', '\'', '\'']

/-- **A text in quotes.** -/
def quote (s : String) : List Char := (Style.ofText s.toList).write s.toList

def isBareChar (c : Char) : Bool :=
  ('a' ≤ c && c ≤ 'z') || ('A' ≤ c && c ≤ 'Z') || ('0' ≤ c && c ≤ '9') || c == '-' || c == '_'

/-- **A key**: bare if it can be, else quoted on one line. -/
def keyText (s : String) : List Char :=
  let cs := s.toList
  if !cs.isEmpty && cs.all isBareChar then cs
  else if Style.basic.isPlainFor cs then Style.basic.write cs
  else if Style.literal.isPlainFor cs then Style.literal.write cs
  else Style.basic.write cs

end Toml
end Interchange
