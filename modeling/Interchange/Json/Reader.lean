import Interchange.Json.Scalar
import Interchange.Number.Word
import Interchange.Text.Octet
/-!
# Reading JSON

A reader takes octets and gives what it read with the octets after it, or a fault.  Blanks are skipped before each piece.
Members are kept as they stand, so a name may occur more than once.
-/
namespace Interchange
namespace Json

def skipBlanks (s : List UInt8) : List UInt8 := s.dropWhile Octet.isBlank

/-! ## Words -/

/-- The rest of a word whose first letter was read.  A wrong letter is read before it is refused. -/
def readWord (rest : List UInt8) : List UInt8 → Except Fault (List UInt8)
  | [] => .ok rest
  | w :: ws =>
    match rest with
    | [] => .error (Cause.eofInValue.here [])
    | b :: rest => if b = w then readWord rest ws else .error (Cause.expectedIdent.here rest)

/-! ## Numbers -/

/-- The digits at the front of octets and the octets after them. -/
def splitDigits (s : List UInt8) : List UInt8 × List UInt8 := s.span Octet.isDigit

def digitsValue (acc : Nat) (digits : List UInt8) : Nat := digits.foldl (fun n b => n * 10 + Octet.digit b) acc

/-- **The digits of an exponent.**  It stops at the digit that takes it past 31 bits. -/
def readExponentDigits (acc : Nat) : List UInt8 → Nat × List UInt8
  | [] => (acc, [])
  | b :: rest =>
    if Octet.isDigit b then
      let acc := acc * 10 + Octet.digit b
      if acc < twoTo 31 then readExponentDigits acc rest else (acc, rest)
    else (acc, b :: rest)

/-- A double of the given sign and digits; the place is behind the number. -/
def floatOf (negative : Bool) (digits : Nat) (exponent : Int) (rest : List UInt8) : Except Fault (Scalar × List UInt8) :=
  let x := Binary64.ofDecimal negative digits exponent
  if x.isFinite then .ok (.float x, rest) else .error (Cause.numberOutOfRange.here rest)

/-- A sign in front of octets, true for minus, and what follows it. -/
def splitSign : List UInt8 → Bool × List UInt8
  | Octet.plus :: s => (false, s)
  | Octet.minus :: s => (true, s)
  | s => (false, s)

/-- An exponent behind its letter.  One of more than 31 bits makes zero or nothing at all of the number. -/
def readExponent (negative : Bool) (digits : Nat) (shift : Int) (s : List UInt8) : Except Fault (Scalar × List UInt8) :=
  let (down, s) := splitSign s
  match s with
  | [] => .error (Cause.eofInValue.here [])
  | b :: s =>
    if Octet.isDigit b then
      let (exponent, rest) := readExponentDigits (Octet.digit b) s
      if exponent < twoTo 31 then floatOf negative digits ((if down then -(exponent : Int) else exponent) + shift) rest
      else if digits ≠ 0 ∧ !down then .error (Cause.numberOutOfRange.here rest)
      else .ok (.float (.zero negative), rest.dropWhile Octet.isDigit)
    else .error (Cause.invalidNumber.here s)

/-- An exponent, if its letter is next. -/
def readExponentPart (negative : Bool) (digits : Nat) (shift : Int) (s : List UInt8) :
    Except Fault (Scalar × List UInt8) :=
  match s with
  | Octet.letterE :: s => readExponent negative digits shift s
  | Octet.upperE :: s => readExponent negative digits shift s
  | s => floatOf negative digits shift s

/-- A number without point and exponent: an integer if it has 64 bits, unsigned ones past the signed range being doubles.
Minus zero is a double. -/
def wholeNumber (negative : Bool) (digits : Nat) (rest : List UInt8) : Except Fault (Scalar × List UInt8) :=
  match int64? (if negative then -(digits : Int) else digits) with
  | some i => if negative && digits == 0 then floatOf true 0 0 rest else .ok (.integer i, rest)
  | none => floatOf negative digits 0 rest

def readFraction (negative : Bool) (whole : Nat) (s : List UInt8) : Except Fault (Scalar × List UInt8) :=
  match s with
  | Octet.point :: s =>
    match splitDigits s with
    | ([], []) => .error (Cause.eofInValue.next [])
    | ([], s) => .error (Cause.invalidNumber.next s)
    | (ds, s) => readExponentPart negative (digitsValue whole ds) (-(ds.length : Int)) s
  | Octet.letterE :: s => readExponent negative whole 0 s
  | Octet.upperE :: s => readExponent negative whole 0 s
  | s => wholeNumber negative whole s

/-- **A number behind its sign.**  A zero in front stands alone. -/
def readNumber (negative : Bool) : List UInt8 → Except Fault (Scalar × List UInt8)
  | [] => .error (Cause.eofInValue.here [])
  | b :: s =>
    if b = Octet.zero then
      if s.head?.any Octet.isDigit then .error (Cause.invalidNumber.next s) else readFraction negative 0 s
    else if Octet.isDigit b then
      let (ds, s) := splitDigits s
      readFraction negative (digitsValue (Octet.digit b) ds) s
    else .error (Cause.invalidNumber.here s)

/-! ## Strings -/

/-- Four hexadecimal digits.  Fewer octets than four are all read before they are refused. -/
def readHex : List UInt8 → Except Fault (Nat × List UInt8)
  | a :: b :: c :: d :: rest =>
    match Octet.hexValue? a, Octet.hexValue? b, Octet.hexValue? c, Octet.hexValue? d with
    | some a, some b, some c, some d => .ok (((a * 16 + b) * 16 + c) * 16 + d, rest)
    | _, _, _, _ => .error (Cause.invalidEscape.here rest)
  | _ => .error (Cause.eofInString.here [])

def readLowSurrogate (high : Nat) : List UInt8 → Except Fault (Char × List UInt8)
  | [] => .error (Cause.eofInString.here [])
  | b :: rest =>
    if b ≠ Octet.backslash then .error (Cause.unexpectedEndOfHexEscape.here rest)
    else
      match rest with
      | [] => .error (Cause.eofInString.here [])
      | b :: rest =>
        if b ≠ Octet.letterU then .error (Cause.unexpectedEndOfHexEscape.here rest)
        else do
          let (low, rest) ← readHex rest
          if low < 0xDC00 ∨ 0xDFFF < low then .error (Cause.loneSurrogate.here rest)
          else .ok (Char.ofNat ((high - 0xD800) * 0x400 + (low - 0xDC00) + 0x10000), rest)

/-- A character written by its code behind `\u`, a pair of surrogates for one past the first plane. -/
def readCode (s : List UInt8) : Except Fault (Char × List UInt8) := do
  let (code, rest) ← readHex s
  if 0xDC00 ≤ code ∧ code ≤ 0xDFFF then .error (Cause.loneSurrogate.here rest)
  else if 0xD800 ≤ code ∧ code ≤ 0xDBFF then readLowSurrogate code rest
  else .ok (Char.ofNat code, rest)

def readEscape : List UInt8 → Except Fault (Char × List UInt8)
  | [] => .error (Cause.eofInString.here [])
  | b :: rest =>
    match b with
    | Octet.quote => .ok ('"', rest)
    | Octet.backslash => .ok ('\\', rest)
    | Octet.slash => .ok ('/', rest)
    | Octet.letterB => .ok ('\x08', rest)
    | Octet.letterF => .ok ('\x0c', rest)
    | Octet.letterN => .ok ('\n', rest)
    | Octet.letterR => .ok ('\r', rest)
    | Octet.letterT => .ok ('\t', rest)
    | Octet.letterU => readCode rest
    | _ => .error (Cause.invalidEscape.here rest)

/-- The octets of a string up to its closing quote, escapes resolved, in at most `fuel` pieces.  With each octet go the
octets left behind the piece that gave it. -/
def readStringOctets : (fuel : Nat) → List UInt8 → Except Fault (List (UInt8 × List UInt8) × List UInt8)
  | 0, _ => .error (Cause.eofInString.here [])
  | _, [] => .error (Cause.eofInString.here [])
  | fuel + 1, b :: rest =>
    if b = Octet.quote then .ok ([], rest)
    else if b = Octet.backslash then do
      let (c, rest) ← readEscape rest
      let (bs, after) ← readStringOctets fuel rest
      return ((String.utf8EncodeChar c).map (·, rest) ++ bs, after)
    else if b < 0x20 then .error (Cause.controlCharacter.here rest)
    else do
      let (bs, after) ← readStringOctets fuel rest
      return ((b, rest) :: bs, after)

/-- **A string behind its opening quote.**  Its octets are taken as text once they are all read; octets that are not text
are refused behind the first of them. -/
def readString (s : List UInt8) : Except Fault (String × List UInt8) := do
  let (bs, rest) ← readStringOctets (s.length + 1) s
  match Utf8.decode (bs.map Prod.fst) with
  | .ok cs => return (String.ofList cs, rest)
  | .error (index, _) => .error (Cause.invalidCodePoint.here ((bs[index]?.map Prod.snd).getD rest))

/-! ## Arrays and objects -/

/-- The items behind an opening bracket or an item, given how one is read. -/
def readItems (value : List UInt8 → Except Fault (Document Scalar × List UInt8)) :
    (fuel : Nat) → (first : Bool) → List UInt8 → Except Fault (List (Document Scalar) × List UInt8)
  | 0, _, s => .error (Cause.eofInList.next s)
  | fuel + 1, first, s =>
    match skipBlanks s with
    | [] => .error (Cause.eofInList.next [])
    | b :: rest =>
      if b = Octet.closeBracket then .ok ([], rest)
      else
        let item (s : List UInt8) : Except Fault (List (Document Scalar) × List UInt8) := do
          let (d, rest) ← value s
          let (ds, rest) ← readItems value fuel false rest
          return (d :: ds, rest)
        if first then item (b :: rest)
        else if b = Octet.comma then
          match skipBlanks rest with
          | [] => .error (Cause.eofInValue.next [])
          | c :: rest => if c = Octet.closeBracket then .error (Cause.trailingComma.next (c :: rest)) else item (c :: rest)
        else .error (Cause.expectedListCommaOrEnd.next (b :: rest))

def readMember (value : List UInt8 → Except Fault (Document Scalar × List UInt8)) (s : List UInt8) :
    Except Fault ((String × Document Scalar) × List UInt8) := do
  let (name, rest) ← readString s
  match skipBlanks rest with
  | [] => .error (Cause.eofInObject.next [])
  | b :: rest =>
    if b = Octet.colon then do
      let (d, rest) ← value rest
      return ((name, d), rest)
    else .error (Cause.expectedColon.next (b :: rest))

/-- The members behind an opening brace or a member, given how a value is read. -/
def readMembers (value : List UInt8 → Except Fault (Document Scalar × List UInt8)) :
    (fuel : Nat) → (first : Bool) → List UInt8 → Except Fault ((List (String × Document Scalar)) × List UInt8)
  | 0, _, s => .error (Cause.eofInObject.next s)
  | fuel + 1, first, s =>
    match skipBlanks s with
    | [] => .error (Cause.eofInObject.next [])
    | b :: rest =>
      if b = Octet.closeBrace then .ok ([], rest)
      else
        let member (s : List UInt8) : Except Fault ((List (String × Document Scalar)) × List UInt8) := do
          let (m, rest) ← readMember value s
          let (ms, rest) ← readMembers value fuel false rest
          return (m :: ms, rest)
        if first then
          if b = Octet.quote then member rest else .error (Cause.keyMustBeString.next (b :: rest))
        else if b = Octet.comma then
          match skipBlanks rest with
          | [] => .error (Cause.eofInValue.next [])
          | c :: rest =>
            if c = Octet.quote then member rest
            else if c = Octet.closeBrace then .error (Cause.trailingComma.next (c :: rest))
            else .error (Cause.keyMustBeString.next (c :: rest))
        else .error (Cause.expectedObjectCommaOrEnd.next (b :: rest))

/-- A scalar or container, inside which `room` more levels of containers may open. -/
def readValue (room : Nat) (s : List UInt8) : Except Fault (Document Scalar × List UInt8) :=
  match skipBlanks s with
  | [] => .error (Cause.eofInValue.next [])
  | b :: rest =>
    let scalar (r : Except Fault (Scalar × List UInt8)) : Except Fault (Document Scalar × List UInt8) :=
      r.map fun (a, rest) => (.scalar a, rest)
    let word (a : Scalar) (letters : List UInt8) : Except Fault (Document Scalar × List UInt8) :=
      (readWord rest letters).map fun rest => (.scalar a, rest)
    match b with
    | Octet.letterN => word .null (Utf8.encode "ull".toList)
    | Octet.letterT => word (.bool true) (Utf8.encode "rue".toList)
    | Octet.letterF => word (.bool false) (Utf8.encode "alse".toList)
    | Octet.minus => scalar (readNumber true rest)
    | Octet.quote => (readString rest).map fun (s, rest) => (.scalar (.string s), rest)
    | Octet.openBracket =>
      match room with
      | 0 => .error (Cause.tooDeep.next (b :: rest))
      | room + 1 => (readItems (readValue room) (rest.length + 1) true rest).map fun (ds, rest) => (.list ds, rest)
    | Octet.openBrace =>
      match room with
      | 0 => .error (Cause.tooDeep.next (b :: rest))
      | room + 1 => (readMembers (readValue room) (rest.length + 1) true rest).map fun (ms, rest) => (.dict ms, rest)
    | _ => if Octet.isDigit b then scalar (readNumber false (b :: rest)) else .error (Cause.expectedValue.next (b :: rest))

def maxNesting : Nat := 127

/-- **The document that a whole input holds.** -/
def parse (input : List UInt8) : Except Fault (Document Scalar) := do
  let (d, rest) ← readValue maxNesting input
  match skipBlanks rest with
  | [] => return d
  | rest => .error (Cause.trailingCharacters.next rest)

end Json
end Interchange
