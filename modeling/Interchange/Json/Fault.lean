/-!
# Faults — why a text is not JSON

A fault is a cause and a place.  The place is kept as the number of octets left there, which a reader that consumes its
input knows without counting; lines and columns are computed from it once, when the whole input is at hand.
-/
namespace Interchange
namespace Json

inductive Cause where
  | eofInList
  | eofInObject
  | eofInString
  | eofInValue
  | expectedColon
  | expectedListCommaOrEnd
  | expectedObjectCommaOrEnd
  | expectedIdent
  | expectedValue
  | invalidEscape
  | invalidNumber
  | numberOutOfRange
  | invalidCodePoint
  | controlCharacter
  | keyMustBeString
  | loneSurrogate
  | trailingComma
  | trailingCharacters
  | unexpectedEndOfHexEscape
  | tooDeep
deriving DecidableEq, Repr

def Cause.message : Cause → String
  | eofInList => "EOF while parsing a list"
  | eofInObject => "EOF while parsing an object"
  | eofInString => "EOF while parsing a string"
  | eofInValue => "EOF while parsing a value"
  | expectedColon => "expected `:`"
  | expectedListCommaOrEnd => "expected `,` or `]`"
  | expectedObjectCommaOrEnd => "expected `,` or `\x7d`"
  | expectedIdent => "expected ident"
  | expectedValue => "expected value"
  | invalidEscape => "invalid escape"
  | invalidNumber => "invalid number"
  | numberOutOfRange => "number out of range"
  | invalidCodePoint => "invalid unicode code point"
  | controlCharacter => "control character (\\u0000-\\u001F) found while parsing a string"
  | keyMustBeString => "key must be a string"
  | loneSurrogate => "lone leading surrogate in hex escape"
  | trailingComma => "trailing comma"
  | trailingCharacters => "trailing characters"
  | unexpectedEndOfHexEscape => "unexpected end of hex escape"
  | tooDeep => "recursion limit exceeded"

/-- A cause and the number of octets left at its place. -/
structure Fault where
  cause : Cause
  left : Nat
deriving DecidableEq, Repr

def Cause.here (cause : Cause) (rest : List UInt8) : Fault := ⟨cause, rest.length⟩

/-- A fault at the next octet, which is looked at and not read; at the end of the input, behind what has been read. -/
def Cause.next (cause : Cause) (rest : List UInt8) : Fault := ⟨cause, rest.length - 1⟩

/-- A line and a column; the column is a number of octets. -/
structure Place where
  line : Nat
  column : Nat
deriving DecidableEq, Repr

/-- **The place behind octets**: the line is one more than their line feeds, the column how many follow the last. -/
def Place.after (octets : List UInt8) : Place :=
  ⟨octets.count 0x0A + 1, (octets.reverse.takeWhile (· != 0x0A)).length⟩

def Fault.place (fault : Fault) (input : List UInt8) : Place :=
  .after (input.take (input.length - fault.left))

end Json
end Interchange
