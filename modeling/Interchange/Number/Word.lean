/-!
# Word — integers of 64 bits
-/
namespace Interchange

/-- **The 64-bit integer with a value**, if there is one. -/
def int64? (i : Int) : Option Int64 :=
  if Int64.minValue.toInt ≤ i ∧ i ≤ Int64.maxValue.toInt then some (Int64.ofInt i) else none

end Interchange
