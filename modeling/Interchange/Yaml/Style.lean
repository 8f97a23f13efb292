import Interchange.Yaml.Character
import Interchange.Yaml.Scalar
/-!
# Style — how YAML writes texts

A text on one line is plain if a reader takes it for itself, else in single quotes.  A text on several lines is a literal
block.  What neither can hold is in double quotes, with escapes.
-/
namespace Interchange
namespace Yaml

/-! ## What a text holds -/

def hasPair (p q : Char → Bool) : List Char → Bool
  | a :: b :: cs => (p a && q b) || hasPair p q (b :: cs)
  | _ => false

def hasOuterSpace (cs : List Char) : Bool :=
  cs.head?.any (fun c => isSpace c || isBreak c) || cs.getLast?.any (fun c => isSpace c || isBreak c)

/-- Whether a colon ends a word, or a number sign starts one. -/
def hasInnerMark : (afterBlank : Bool) → List Char → Bool
  | _, [] => false
  | afterBlank, c :: cs =>
    (c == ':' && endsWord cs) || (c == '#' && afterBlank) || hasInnerMark (isBlankOrBreak c) cs

def startsWithMark (cs : List Char) : Bool :=
  match cs with
  | '-' :: '-' :: '-' :: _ => true
  | '.' :: '.' :: '.' :: _ => true
  | '-' :: cs => endsWord cs
  | '?' :: cs => endsWord cs
  | c :: _ => "#,[]\x7b\x7d&*!|>'\"%@`".toList.contains c
  | [] => false

/-! ## Styles -/

inductive Style where
  | plain
  | singleQuoted
  | doubleQuoted
  | literal
deriving DecidableEq, Repr

/-- **Whether a style holds a text**: every character as it is, and nothing taken for something else. -/
def Style.holds (cs : List Char) : Style → Bool
  | plain =>
    cs.all isPrintable && !cs.any isBreak && !hasOuterSpace cs && !startsWithMark cs && !hasInnerMark true cs
  | singleQuoted => cs.all isPrintable && !hasPair isSpace isBreak cs && !hasPair isBreak isSpace cs
  | literal => cs.all isPrintable && !hasPair isSpace isBreak cs && !cs.getLast?.any isSpace
  | doubleQuoted => true

def needsQuotes (cs : List Char) : Bool := (plain? cs).isSome || hasRedundantZero cs

/-- **The style of a text.** -/
def Style.ofText (cs : List Char) : Style :=
  if cs.contains '\n' then if literal.holds cs then literal else doubleQuoted
  else if !needsQuotes cs && plain.holds cs then plain
  else if singleQuoted.holds cs then singleQuoted
  else doubleQuoted

/-! ## Writing -/

def spaces (n : Nat) : List Char := List.replicate n ' '

/-- A text whose lines after a break are indented; `atStart` says that it stands behind a break. -/
def indentLines (n : Nat) : (atStart : Bool) → List Char → List Char
  | _, [] => []
  | atStart, c :: cs =>
    if isBreak c then c :: indentLines n true cs
    else (if atStart then spaces n else []) ++ c :: indentLines n false cs

def doubleQuotes (cs : List Char) : List Char := cs.flatMap fun c => if c == '\'' then [c, c] else [c]

def hexText (width n : Nat) : List Char :=
  let ds := (Nat.toDigits 16 n).map Char.toUpper
  List.replicate (width - ds.length) '0' ++ ds

def escapeText (c : Char) : List Char :=
  match c with
  | '\x00' => ['\\', '0']
  | '\x07' => ['\\', 'a']
  | '\x08' => ['\\', 'b']
  | '\t' => ['\\', 't']
  | '\n' => ['\\', 'n']
  | '\x0b' => ['\\', 'v']
  | '\x0c' => ['\\', 'f']
  | '\r' => ['\\', 'r']
  | '\x1b' => ['\\', 'e']
  | '"' => ['\\', '"']
  | '\\' => ['\\', '\\']
  | '\x85' => ['\\', 'N']
  | '\u2028' => ['\\', 'L']
  | '\u2029' => ['\\', 'P']
  | c =>
    if c.toNat ≤ 0xFF then '\\' :: 'x' :: hexText 2 c.toNat
    else if c.toNat ≤ 0xFFFF then '\\' :: 'u' :: hexText 4 c.toNat
    else '\\' :: 'U' :: hexText 8 c.toNat

def escapeChar (c : Char) : List Char :=
  if !isPrintable c || isBreak c || c == '"' || c == '\\' then escapeText c else [c]

/-- The header of a literal block.  A first line that is empty or starts with a space needs the indentation in figures;
a minus or a plus says what becomes of the line ends behind the text. -/
def literalHeader (cs : List Char) : List Char :=
  '|' :: (if cs.head?.any (fun c => isSpace c || isBreak c) then ['2'] else [])
    ++ match cs.reverse with
      | [] => ['-']
      | [c] => if isBreak c then ['+'] else ['-']
      | c :: d :: _ => if !isBreak c then ['-'] else if isBreak d then ['+'] else []

/-- **A text with the end of its line**, the lines after the first indented by `n`. -/
def Style.write (n : Nat) (cs : List Char) : Style → List Char
  | plain => cs
  | singleQuoted =>
    '\'' :: indentLines n false (doubleQuotes cs) ++ (if cs.getLast?.any isBreak then spaces n else []) ++ ['\'']
  | doubleQuoted => '"' :: cs.flatMap escapeChar ++ ['"']
  | literal => literalHeader cs ++ '\n' :: indentLines n true cs

/-- Whether what is written in a style is at the start of a new line already. -/
def Style.endsLine (cs : List Char) : Style → Bool
  | literal => cs.getLast?.any isBreak
  | _ => false

end Yaml
end Interchange
