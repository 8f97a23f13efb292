/-!
# Characters of YAML
-/
namespace Interchange
namespace Yaml

def isBreak (c : Char) : Bool :=
  c == '\n' || c == '\r' || c == '\x85' || c == '\u2028' || c == '\u2029'

def isSpace (c : Char) : Bool := c == ' '

def isBlank (c : Char) : Bool := c == ' ' || c == '\t'

/-- A blank, a line end or the null character. -/
def isBlankOrBreak (c : Char) : Bool := isBlank c || isBreak c || c == '\x00'

/-- Whether a text is at its end or goes on with a blank or a line end. -/
def endsWord (cs : List Char) : Bool := cs.head?.all isBlankOrBreak

def isWordChar (c : Char) : Bool :=
  ('a' ≤ c && c ≤ 'z') || ('A' ≤ c && c ≤ 'Z') || ('0' ≤ c && c ≤ '9') || c == '_' || c == '-'

/-- A character that marks the parts of a collection in brackets. -/
def isFlowMark (c : Char) : Bool := c == ',' || c == '[' || c == ']' || c == '\x7b' || c == '\x7d'

/-- A character that is written as it is: no control character but the line feed, no byte order mark and no
noncharacter of the first plane. -/
def isPrintable (c : Char) : Bool :=
  let n := c.toNat
  n == 0x0A || (0x20 ≤ n && n ≤ 0x7E) || (0xA0 ≤ n && n != 0xFEFF && n != 0xFFFE && n != 0xFFFF)

def isAllowed (c : Char) : Bool :=
  c == '\t' || c == '\r' || c == '\x85' || c == '\ufeff' || isPrintable c

end Yaml
end Interchange
