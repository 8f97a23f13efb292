import Interchange.Proofs.Border
import Interchange.Proofs.Exact
/-!
# Keys — doubles as keys of a table

A double is the key of the integer that it is, and else a key of its own, told from others by its pattern.  Doubles that are
equal are still one key, as the only ones with two patterns are the zeros; an entry is therefore found by every key of the
same number and by no other (`Key.ofFloat_addresses`).
-/
namespace Interchange

namespace Key

variable {x y : Binary64} {i : Int64}

theorem ofFloat_of_toInt64?_eq_some (h : x.toInt64? = some i) : ofFloat x = integer i := by rw [ofFloat, h]

theorem ofFloat_of_toInt64?_eq_none (h : x.toInt64? = none) : ofFloat x = float x := by rw [ofFloat, h]

/-- **The key of a double is that of an integer** when the double is that integer. -/
theorem ofFloat_eq_integer_iff : ofFloat x = integer i ↔ x.toInt64? = some i := by
  cases h : x.toInt64? with
  | none => rw [ofFloat_of_toInt64?_eq_none h]; exact iff_of_false nofun nofun
  | some j => rw [ofFloat_of_toInt64?_eq_some h, integer.injEq, Option.some.injEq]

/-- **Doubles that are equal are one key.**  The zeros are both the key of the integer. -/
theorem ofFloat_eq_of_numericEq (h : x.numericEq y = true) : ofFloat x = ofFloat y := by
  have hint := Binary64.toInt64?_eq_of_numericEq h
  cases hx : x.toInt64? with
  | some i => rw [ofFloat_of_toInt64?_eq_some hx, ofFloat_of_toInt64?_eq_some (hint ▸ hx)]
  | none =>
    obtain ⟨-, -, rfl | ⟨hzero, -⟩⟩ := Binary64.numericEq_iff.1 h
    · rfl
    · rw [Binary64.toInt64?_of_isZero hzero] at hx
      cases hx

/-- **Doubles of one key are equal**, NaNs apart. -/
theorem numericEq_of_ofFloat_eq (hx : x.isNaN = false) (h : ofFloat x = ofFloat y) : x.numericEq y = true := by
  cases hint : x.toInt64? with
  | some i =>
    rw [ofFloat_of_toInt64?_eq_some hint] at h
    have hy := ofFloat_eq_integer_iff.1 h.symm
    rw [Binary64.toInt64?_eq_some_iff] at hint hy
    exact Binary64.numericEq_iff_number?.2 ⟨_, Binary64.number?_of_toRat? hint, Binary64.number?_of_toRat? hy⟩
  | none =>
    rw [ofFloat_of_toInt64?_eq_none hint] at h
    obtain rfl : x = y := by
      cases hy : y.toInt64? with
      | some j => rw [ofFloat_of_toInt64?_eq_some hy] at h; cases h
      | none => rw [ofFloat_of_toInt64?_eq_none hy] at h; exact float.inj h
    exact Binary64.numericEq_iff.2 ⟨hx, hx, .inl rfl⟩

theorem ofFloat_eq_iff_number? (hx : x.isNaN = false) : ofFloat x = ofFloat y ↔ x.number? = y.number? := by
  constructor
  · intro h
    obtain ⟨r, hxr, hyr⟩ := Binary64.numericEq_iff_number?.1 (numericEq_of_ofFloat_eq hx h)
    exact hxr.trans hyr.symm
  · intro h
    obtain ⟨r, hr⟩ := Binary64.number?_isSome hx
    exact ofFloat_eq_of_numericEq (Binary64.numericEq_iff_number?.2 ⟨r, hr, h ▸ hr⟩)

theorem get?_set_empty (k k' : Key) (v : Value) : (Table.empty.set k v).get? k' = if k = k' then some v else none :=
  Entries.get?_set k k' v []

/-- **Keys of doubles go by number.**  Two doubles are equal when they stand for one number, and then they are one key; a key
that a number shares with another double is that of equal doubles.  The key of a double is the key of an integer exactly when
the double is this integer, and exactly then it counts as this integer as a value.  So the only entry of a table, set under a
double that is no NaN, is found under another double and under an integer exactly when they are the same number. -/
theorem ofFloat_addresses (x y : Binary64) (i : Int64) (v : Value) :
    (x.numericEq y = true ↔ ∃ r, x.number? = some r ∧ y.number? = some r) ∧
    (x.numericEq y = true → ofFloat x = ofFloat y) ∧
    (x.isNaN = false → ofFloat x = ofFloat y → x.numericEq y = true) ∧
    (ofFloat x = integer i ↔ x.toRat? = some (i.toInt : ℚ)) ∧
    (x.toRat? = some (i.toInt : ℚ) ↔ (Number.float x).toInt64? = some i) ∧
    (x.isNaN = false →
      ((Table.empty.set (ofFloat x) v).get? (ofFloat y) = if x.number? = y.number? then some v else none) ∧
      (Table.empty.set (ofFloat x) v).get? (integer i) = if x.toRat? = some (i.toInt : ℚ) then some v else none) := by
  have hinteger : ofFloat x = integer i ↔ x.toRat? = some (i.toInt : ℚ) :=
    ofFloat_eq_integer_iff.trans Binary64.toInt64?_eq_some_iff
  refine ⟨Binary64.numericEq_iff_number?, ofFloat_eq_of_numericEq, numericEq_of_ofFloat_eq, hinteger,
    Binary64.toInt64?_eq_some_iff.symm, fun hx => ?_⟩
  rw [get?_set_empty, get?_set_empty]
  exact ⟨if_congr (ofFloat_eq_iff_number? hx) rfl rfl, if_congr hinteger rfl rfl⟩

/-- What is set under the negative zero is found under the other zero and under the integer; what is set under the double
after the greatest integer of 64 bits is not found under that integer, which rounds to it. -/
theorem ofFloat_addresses_bounds :
    ((Binary64.zero true).numericEq (.zero false) = true ∧ (Binary64.zero true).isNaN = false ∧
      ofFloat (.zero true) = ofFloat (.zero false) ∧
      (Table.empty.set (ofFloat (.zero true)) (.string "none")).get? (ofFloat (.zero false)) = some (.string "none") ∧
      (Table.empty.set (ofFloat (.zero true)) (.string "none")).get? (integer 0) = some (.string "none")) ∧
    (Binary64.ofInt Int64.maxValue.toInt).isNaN = false ∧
      (Table.empty.set (ofFloat (.ofInt Int64.maxValue.toInt)) (.bool true)).get? (integer Int64.maxValue) = none := by
  have hequal : (Binary64.zero true).numericEq (.zero false) = true := by decide
  have hzero : (Binary64.zero true).isNaN = false := by decide
  have hbound : (Binary64.ofInt Int64.maxValue.toInt).isNaN = false := by decide +kernel
  obtain ⟨-, hkey, -, -, -, hfound⟩ := ofFloat_addresses (.zero true) (.zero false) 0 (.string "none")
  obtain ⟨-, -, -, -, -, hmissed⟩ := ofFloat_addresses (.ofInt Int64.maxValue.toInt) (.zero true) Int64.maxValue (.bool true)
  refine ⟨⟨hequal, hzero, hkey hequal, ?_, ?_⟩, hbound, ?_⟩
  · rw [(hfound hzero).1, if_pos (by decide +kernel)]
  · rw [(hfound hzero).2, if_pos (by decide +kernel)]
  · rw [(hmissed hbound).2, if_neg (by decide +kernel)]

end Key
end Interchange
