/-!
# UTF-8 — octets and characters

Writing is core's encoding, character by character.  Reading refuses an ill-formed sequence with its length: the number
of octets that begin some character but are not continued as any, or the fact that the input ends inside a character.
-/
namespace Interchange

/-- Why octets are not a character. -/
inductive Utf8Fault where
  | invalid (length : Nat)
  | incomplete
deriving DecidableEq, Repr

namespace Utf8

def encode (cs : List Char) : List UInt8 := cs.flatMap String.utf8EncodeChar

def isContinuation (b : UInt8) : Bool := 0x80 ≤ b && b < 0xC0

/-- The number of octets of a character that starts with this one; none if no character does. -/
def width (b : UInt8) : Nat :=
  if b < 0x80 then 1
  else if b < 0xC2 then 0
  else if b < 0xE0 then 2
  else if b < 0xF0 then 3
  else if b < 0xF5 then 4
  else 0

/-- Whether the second octet continues the first to a shortest form of a character: it rules out overlong forms,
surrogates and everything past the last code point. -/
def isSecond (first second : UInt8) : Bool :=
  isContinuation second &&
    match first with
    | 0xE0 => 0xA0 ≤ second
    | 0xED => second < 0xA0
    | 0xF0 => 0x90 ≤ second
    | 0xF4 => second < 0x90
    | _ => true

def payload (b : UInt8) : Nat := b.toNat % 64

/-- **The first character of octets and the number of octets it takes.** -/
def decodeChar : List UInt8 → Except Utf8Fault (Char × Nat)
  | [] => .error .incomplete
  | b :: rest =>
    match width b, rest with
    | 1, _ => .ok (Char.ofNat b.toNat, 1)
    | 0, _ => .error (.invalid 1)
    | _, [] => .error .incomplete
    | n, c :: rest =>
      if !isSecond b c then .error (.invalid 1)
      else if n = 2 then .ok (Char.ofNat (b.toNat % 32 * 64 + payload c), 2)
      else
        match rest with
        | [] => .error .incomplete
        | d :: rest =>
          if !isContinuation d then .error (.invalid 2)
          else if n = 3 then .ok (Char.ofNat ((b.toNat % 16 * 64 + payload c) * 64 + payload d), 3)
          else
            match rest with
            | [] => .error .incomplete
            | e :: _ =>
              if !isContinuation e then .error (.invalid 3)
              else .ok (Char.ofNat (((b.toNat % 8 * 64 + payload c) * 64 + payload d) * 64 + payload e), 4)

/-- Characters from octets, skipping those of the character before. -/
def decodeFrom : (index skip : Nat) → List UInt8 → Except (Nat × Utf8Fault) (List Char)
  | _, _, [] => .ok []
  | index, skip + 1, _ :: rest => decodeFrom (index + 1) skip rest
  | index, 0, b :: rest =>
    match decodeChar (b :: rest) with
    | .error fault => .error (index, fault)
    | .ok (c, n) => (decodeFrom (index + 1) (n - 1) rest).map (c :: ·)

/-- **The characters of octets**, or the length of the longest prefix that is text and what is wrong after it. -/
def decode (octets : List UInt8) : Except (Nat × Utf8Fault) (List Char) := decodeFrom 0 0 octets

def decode? (octets : List UInt8) : Option (List Char) :=
  match decode octets with
  | .ok cs => some cs
  | .error _ => none

def faultMessage (index : Nat) : Utf8Fault → String
  | .invalid length => "invalid utf-8 sequence of " ++ toString length ++ " bytes from index " ++ toString index
  | .incomplete => "incomplete utf-8 byte sequence from index " ++ toString index

end Utf8
end Interchange
