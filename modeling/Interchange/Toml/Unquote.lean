import Interchange.Number.Reading
import Interchange.Toml.Quoted
/-!
# Unquote — how TOML reads texts and keys

A text stands on one line or on several, with escapes or without.  A line may end in a carriage return and a line feed,
which count as a line feed.
-/
namespace Interchange
namespace Toml
namespace Unquote

def isLineChar (c : Char) : Bool := c == '\t' || (0x20 ≤ c.toNat && c.toNat != 0x7F)

def isBlank (c : Char) : Bool := c == ' ' || c == '\t'

def newline? : List Char → Option (List Char)
  | '\n' :: cs => some cs
  | '\r' :: '\n' :: cs => some cs
  | _ => none

def push (c : Char) (r : List Char × List Char) : List Char × List Char := (c :: r.1, r.2)

def code? (ds : List Char) : Option Char :=
  (digitsValue? 16 ds).bind fun n => if n.isValidChar then some (Char.ofNat n) else none

def escape? : Char → Option Char
  | 'b' => some '\x08'
  | 't' => some '\t'
  | 'n' => some '\n'
  | 'f' => some '\x0c'
  | 'r' => some '\r'
  | '"' => some '"'
  | '\\' => some '\\'
  | _ => none

/-- **A text with escapes on one line**, behind its opening quote. -/
def basic? : List Char → Option (List Char × List Char)
  | [] => none
  | '"' :: cs => some ([], cs)
  | '\\' :: 'u' :: a :: b :: c :: d :: cs => do return push (← code? [a, b, c, d]) (← basic? cs)
  | '\\' :: 'U' :: a :: b :: c :: d :: e :: f :: g :: h :: cs => do
    return push (← code? [a, b, c, d, e, f, g, h]) (← basic? cs)
  | '\\' :: c :: cs => do return push (← escape? c) (← basic? cs)
  | c :: cs => if isLineChar c && c != '\\' then (basic? cs).map (push c) else none

/-- **A text without escapes on one line**, behind its opening quote. -/
def literal? : List Char → Option (List Char × List Char)
  | [] => none
  | '\'' :: cs => some ([], cs)
  | c :: cs => if isLineChar c then (literal? cs).map (push c) else none

/-- The quotes in front of the three that close a text: at most two more of a run belong to it. -/
def closing (quote : Char) : List Char → List Char × List Char
  | a :: b :: cs =>
    if a = quote then if b = quote then ([quote, quote], cs) else ([quote], b :: cs) else ([], a :: b :: cs)
  | [a] => if a = quote then ([quote], []) else ([], [a])
  | [] => ([], [])

def endsLine (cs : List Char) : Bool := (newline? (cs.dropWhile isBlank)).isSome

/-- **A text with escapes on several lines**, behind its opening quotes.  A backslash at the end of a line drops all
blanks and line ends behind it. -/
def basicLines? : (dropping : Bool) → List Char → Option (List Char × List Char)
  | _, [] => none
  | _, '"' :: '"' :: '"' :: cs => some (closing '"' cs)
  | dropping, '\r' :: '\n' :: cs => if dropping then basicLines? true cs else (basicLines? false cs).map (push '\n')
  | dropping, '\n' :: cs => if dropping then basicLines? true cs else (basicLines? false cs).map (push '\n')
  | _, '\\' :: 'u' :: a :: b :: c :: d :: cs => do return push (← code? [a, b, c, d]) (← basicLines? false cs)
  | _, '\\' :: 'U' :: a :: b :: c :: d :: e :: f :: g :: h :: cs => do
    return push (← code? [a, b, c, d, e, f, g, h]) (← basicLines? false cs)
  | _, '\\' :: c :: cs =>
    if endsLine (c :: cs) then basicLines? true (c :: cs)
    else do return push (← escape? c) (← basicLines? false cs)
  | dropping, c :: cs =>
    if dropping && isBlank c then basicLines? true cs
    else if isLineChar c && c != '\\' then (basicLines? false cs).map (push c)
    else none

/-- **A text without escapes on several lines**, behind its opening quotes. -/
def literalLines? : List Char → Option (List Char × List Char)
  | [] => none
  | '\'' :: '\'' :: '\'' :: cs => some (closing '\'' cs)
  | '\r' :: '\n' :: cs => (literalLines? cs).map (push '\n')
  | c :: cs => if isLineChar c || c == '\n' then (literalLines? cs).map (push c) else none

/-- A text on several lines may start on the line below its quotes. -/
def dropNewline (cs : List Char) : List Char := (newline? cs).getD cs

/-- **A quoted text.** -/
def read? (cs : List Char) : Option (List Char × List Char) :=
  match cs with
  | '"' :: '"' :: '"' :: cs => basicLines? false (dropNewline cs)
  | '"' :: cs => basic? cs
  | '\'' :: '\'' :: '\'' :: cs => literalLines? (dropNewline cs)
  | '\'' :: cs => literal? cs
  | _ => none

/-- **One part of a key**: quoted on one line, or bare. -/
def key? (cs : List Char) : Option (List Char × List Char) :=
  match cs with
  | '"' :: cs => basic? cs
  | '\'' :: cs => literal? cs
  | cs =>
    match cs.span isBareChar with
    | ([], _) => none
    | found => some found

end Unquote
end Toml
end Interchange
