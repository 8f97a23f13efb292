/-!
# Blank — the Unicode property White_Space
-/
namespace Interchange

/-- **White space**: the characters that stand for blanks and line ends in Unicode. -/
def isWhiteSpace (c : Char) : Bool :=
  let n := c.toNat
  (0x09 ≤ n && n ≤ 0x0D) || n == 0x20 || n == 0x85 || n == 0xA0 || n == 0x1680 || (0x2000 ≤ n && n ≤ 0x200A)
    || n == 0x2028 || n == 0x2029 || n == 0x202F || n == 0x205F || n == 0x3000

example : [' ', '\t', '\n', '\r', '\u00a0', '\u3000'].all isWhiteSpace ∧ ¬ isWhiteSpace 'x' := by decide

end Interchange
