import Interchange.Proofs.Readback
import Mathlib.Data.Rat.Cast.Order
import Mathlib.Order.WithBot
import Mathlib.Tactic.FieldSimp
import Mathlib.Tactic.NormNum
import Mathlib.Tactic.Positivity
/-!
# Exact — the number that a double is

A finite double is a rational number, its signed magnitude over `2 ^ 1074`.  Patterns are in the order of the magnitudes
(`Binary64.magnitude_lt_iff`), so numeric order and equality of doubles, which compare patterns, are those of the numbers
(`Binary64.le_iff_signedMagnitude`, `Binary64.numericEq_iff_number?`), and the test for an integer finds exactly the doubles
that are one (`Binary64.toInt64?_eq_some_iff`).
-/
namespace Interchange

theorem cast_twoTo (k : Nat) : (twoTo k : ℚ) = 2 ^ k := Nat.cast_pow 2 k

namespace Binary64

variable {x y : Binary64}

/-- The magnitude of a double with its sign, in units of `2 ^ -1074`. -/
def signedMagnitude (x : Binary64) : Int := if x.negative then -(x.magnitude : Int) else x.magnitude

/-- **The number that a finite double is.** -/
def toRat? (x : Binary64) : Option ℚ := if x.isFinite then some (x.signedMagnitude / 2 ^ 1074) else none

/-- **The number that a double stands for**, an infinity being one of the ends of the line; a NaN stands for none. -/
def number? (x : Binary64) : Option (WithBot (WithTop ℚ)) :=
  if x.isNaN then none
  else
    match x.toRat? with
    | some q => some ((q : WithTop ℚ) : WithBot (WithTop ℚ))
    | none => some (if x.negative then ⊥ else ((⊤ : WithTop ℚ) : WithBot (WithTop ℚ)))

/-! ## Magnitudes in the order of patterns -/

theorem magnitude_lt_of_unit_lt (hu : x.unit < y.unit) : x.magnitude < y.magnitude := by
  have hlow : twoTo 52 ≤ y.significand := le_significand (by omega)
  calc x.magnitude < twoTo 53 * twoTo x.unit := Nat.mul_lt_mul_of_pos_right x.significand_lt (twoTo_pos _)
    _ = twoTo 52 * twoTo (x.unit + 1) := by rw [← twoTo_add, ← twoTo_add]; congr 1; omega
    _ ≤ y.significand * twoTo y.unit := Nat.mul_le_mul hlow (twoTo_le hu)

theorem magnitude_lt_of_lt (h : x.unsignedWord < y.unsignedWord) : x.magnitude < y.magnitude := by
  rcases Nat.lt_trichotomy x.unit y.unit with hu | hu | hu
  · exact magnitude_lt_of_unit_lt hu
  · rw [unsignedWord_eq, unsignedWord_eq, hu] at h
    rw [magnitude, magnitude, hu]
    exact Nat.mul_lt_mul_of_pos_right (by omega) (twoTo_pos _)
  · -- a greater unit comes with a greater pattern
    have hlow : twoTo 52 ≤ x.significand := le_significand (by omega)
    have hhigh := y.significand_lt
    have hmul := Nat.mul_le_mul_right (twoTo 52) (Nat.succ_le_of_lt hu)
    rw [unsignedWord_eq, unsignedWord_eq] at h
    rw [Nat.succ_mul] at hmul
    rw [twoTo_53] at hhigh
    rw [twoTo_52] at *
    omega

theorem magnitude_eq_of_eq (h : x.unsignedWord = y.unsignedWord) : x.magnitude = y.magnitude := by
  have hexponent : x.exponentField = y.exponentField := by rw [exponentField, h, exponentField]
  have hfraction : x.fraction = y.fraction := by rw [fraction, h, fraction]
  rw [magnitude, magnitude, significand, significand, unit, unit, hexponent, hfraction]

/-- **Magnitudes are in the order of the unsigned patterns.** -/
theorem magnitude_lt_iff : x.magnitude < y.magnitude ↔ x.unsignedWord < y.unsignedWord := by
  refine ⟨fun h => ?_, magnitude_lt_of_lt⟩
  rcases Nat.lt_trichotomy x.unsignedWord y.unsignedWord with hlt | heq | hgt
  · exact hlt
  · exact absurd (magnitude_eq_of_eq heq) h.ne
  · exact absurd (magnitude_lt_of_lt hgt) h.asymm

theorem magnitude_eq_zero_iff : x.magnitude = 0 ↔ x.unsignedWord = 0 := by
  have hzero : (zero false).magnitude = 0 := by decide
  have hword : (zero false).unsignedWord = 0 := by decide
  have hlt := magnitude_lt_iff (x := zero false) (y := x)
  rw [hzero, hword] at hlt
  omega

theorem rank_le_iff : x.rank ≤ y.rank ↔ x.signedMagnitude ≤ y.signedMagnitude := by
  have hxy := magnitude_lt_iff (x := x) (y := y)
  have hyx := magnitude_lt_iff (x := y) (y := x)
  have hx := magnitude_eq_zero_iff (x := x)
  have hy := magnitude_eq_zero_iff (x := y)
  unfold rank signedMagnitude
  cases x.negative <;> cases y.negative <;> simp <;> omega

/-! ## Order and equality -/

theorem rank_eq_iff : x.rank = y.rank ↔ x = y ∨ x.isZero = true ∧ y.isZero = true := by
  constructor
  · intro h
    by_cases hsign : x.negative = y.negative
    · left
      rw [← x.ofWord_unsignedWord, ← y.ofWord_unsignedWord, hsign]
      unfold rank at h
      rw [hsign] at h
      congr 1
      split at h <;> omega
    · right
      have hzero : x.unsignedWord = 0 ∧ y.unsignedWord = 0 := by
        unfold rank at h
        cases hx : x.negative <;> cases hy : y.negative <;> simp [hx, hy] at h hsign <;> omega
      exact ⟨beq_iff_eq.2 hzero.1, beq_iff_eq.2 hzero.2⟩
  · rintro (rfl | ⟨hx, hy⟩)
    · rfl
    · rw [isZero, beq_iff_eq] at hx hy
      rw [rank, rank, hx, hy]
      split <;> split <;> rfl

theorem numericEq_iff : x.numericEq y = true ↔
    x.isNaN = false ∧ y.isNaN = false ∧ (x = y ∨ x.isZero = true ∧ y.isZero = true) := by
  simp only [numericEq, Bool.and_eq_true, Bool.or_eq_true, Bool.not_eq_true', beq_iff_eq, and_assoc]

/-- **Doubles are equal when they are none of them NaN and have one place in the order.** -/
theorem numericEq_iff_rank : x.numericEq y = true ↔ x.isNaN = false ∧ y.isNaN = false ∧ x.rank = y.rank := by
  rw [numericEq_iff, rank_eq_iff]

/-- **Numeric order is the order of signed magnitudes.** -/
theorem le_iff_signedMagnitude (hx : x.isNaN = false) (hy : y.isNaN = false) :
    x.le y = true ↔ x.signedMagnitude ≤ y.signedMagnitude := by
  rw [le, hx, hy, ← rank_le_iff]
  simp

theorem lt_iff_signedMagnitude (hx : x.isNaN = false) (hy : y.isNaN = false) :
    x.lt y = true ↔ x.signedMagnitude < y.signedMagnitude := by
  rw [← not_le, ← rank_le_iff, lt, hx, hy]
  simp

theorem units_pos : (0 : ℚ) < 2 ^ 1074 := by positivity

theorem toRat?_eq_some_iff {q : ℚ} : x.toRat? = some q ↔ x.isFinite = true ∧ (x.signedMagnitude : ℚ) = q * 2 ^ 1074 := by
  rw [toRat?, ← div_eq_iff units_pos.ne']
  split <;> simp [*]

/-- **A number that is not zero** has the magnitude and the sign of its double. -/
theorem magnitude_of_toRat? {q : ℚ} (hq : x.toRat? = some q) (h0 : q ≠ 0) :
    0 < x.magnitude ∧ |q| = x.magnitude / 2 ^ 1074 ∧ x.negative = decide (q < 0) := by
  obtain ⟨-, hsigned⟩ := toRat?_eq_some_iff.1 hq
  have hpos : x.magnitude ≠ 0 := fun hzero => by
    rw [signedMagnitude, hzero, Nat.cast_zero, neg_zero, ite_self, Int.cast_zero, eq_comm, mul_eq_zero] at hsigned
    exact hsigned.elim h0 units_pos.ne'
  have hcast : (0 : ℚ) < x.magnitude / 2 ^ 1074 := div_pos (Nat.cast_pos.2 (Nat.pos_of_ne_zero hpos)) units_pos
  refine ⟨Nat.pos_of_ne_zero hpos, ?_⟩
  rw [signedMagnitude] at hsigned
  split at hsigned
  · rename_i hneg
    obtain rfl : q = -(x.magnitude / 2 ^ 1074) := by
      rw [← neg_div, eq_div_iff units_pos.ne', ← hsigned]
      push_cast
      rfl
    rw [abs_neg, abs_of_pos hcast, hneg, decide_eq_true (neg_neg_iff_pos.2 hcast)]
    exact ⟨rfl, rfl⟩
  · rename_i hneg
    obtain rfl : q = x.magnitude / 2 ^ 1074 := by
      rw [eq_div_iff units_pos.ne', ← hsigned]
      push_cast
      rfl
    rw [abs_of_pos hcast, Bool.eq_false_iff.2 hneg, decide_eq_false hcast.not_gt]
    exact ⟨rfl, rfl⟩

theorem number?_of_isFinite (hf : x.isFinite = true) :
    x.number? = some (((x.signedMagnitude / 2 ^ 1074 : ℚ) : WithTop ℚ) : WithBot (WithTop ℚ)) := by
  rw [number?, isNaN_of_isFinite hf, toRat?, if_pos hf]
  rfl

theorem number?_of_toRat? {q : ℚ} (h : x.toRat? = some q) : x.number? = some ((q : WithTop ℚ) : WithBot (WithTop ℚ)) := by
  have hf := (toRat?_eq_some_iff.1 h).1
  rw [toRat?, if_pos hf] at h
  rw [number?_of_isFinite hf, Option.some.inj h]

theorem number?_of_isFinite_eq_false (hn : x.isNaN = false) (hf : x.isFinite = false) :
    x.number? = some (if x.negative then ⊥ else ((⊤ : WithTop ℚ) : WithBot (WithTop ℚ))) := by
  rw [number?, hn, toRat?, hf]
  rfl

theorem unsignedWord_of_isFinite_eq_false (hn : x.isNaN = false) (hf : x.isFinite = false) :
    x.unsignedWord = infinityWord :=
  Nat.le_antisymm (Nat.not_lt.1 (of_decide_eq_false hn)) (Nat.not_lt.1 (of_decide_eq_false hf))

/-- An infinity is at neither place of a finite double. -/
theorem rank_ne_of_isFinite (hx : x.isFinite = true) (hy : y.isNaN = false) (hyf : y.isFinite = false) :
    x.rank ≠ y.rank := by
  have hlt : x.unsignedWord < infinityWord := of_decide_eq_true hx
  have heq := unsignedWord_of_isFinite_eq_false hy hyf
  unfold rank
  split <;> split <;> omega

theorem number?_ne_of_isFinite (hx : x.isFinite = true) (hy : y.isNaN = false) (hyf : y.isFinite = false) :
    x.number? ≠ y.number? := by
  rw [number?_of_isFinite hx, number?_of_isFinite_eq_false hy hyf]
  intro h
  split at h <;> cases h

/-- **Numbers are the same exactly at the same place in the order.** -/
theorem rank_eq_iff_number? (hx : x.isNaN = false) (hy : y.isNaN = false) : x.rank = y.rank ↔ x.number? = y.number? := by
  cases hxf : x.isFinite with
  | true =>
    cases hyf : y.isFinite with
    | true =>
      rw [le_antisymm_iff, rank_le_iff, rank_le_iff, ← le_antisymm_iff, number?_of_isFinite hxf, number?_of_isFinite hyf]
      simp [units_pos.ne']
    | false => exact iff_of_false (rank_ne_of_isFinite hxf hy hyf) (number?_ne_of_isFinite hxf hy hyf)
  | false =>
    cases hyf : y.isFinite with
    | true => exact iff_of_false (rank_ne_of_isFinite hyf hx hxf).symm (number?_ne_of_isFinite hyf hx hxf).symm
    | false =>
      have hpos : 0 < infinityWord := by decide
      rw [number?_of_isFinite_eq_false hx hxf, number?_of_isFinite_eq_false hy hyf, rank, rank,
        unsignedWord_of_isFinite_eq_false hx hxf, unsignedWord_of_isFinite_eq_false hy hyf]
      cases x.negative <;> cases y.negative <;> simp <;> omega

theorem number?_isSome (hx : x.isNaN = false) : ∃ r, x.number? = some r := by
  cases hxf : x.isFinite with
  | true => exact ⟨_, number?_of_isFinite hxf⟩
  | false => exact ⟨_, number?_of_isFinite_eq_false hx hxf⟩

theorem isNaN_of_number? {r : WithBot (WithTop ℚ)} (h : x.number? = some r) : x.isNaN = false := by
  rw [number?] at h
  split at h
  · cases h
  · rename_i hn
    exact Bool.eq_false_iff.2 hn

/-- **Doubles are equal when they stand for one number.** -/
theorem numericEq_iff_number? : x.numericEq y = true ↔ ∃ r, x.number? = some r ∧ y.number? = some r := by
  rw [numericEq_iff_rank]
  constructor
  · rintro ⟨hx, hy, hrank⟩
    obtain ⟨r, hr⟩ := number?_isSome hx
    exact ⟨r, hr, ((rank_eq_iff_number? hx hy).1 hrank).symm.trans hr⟩
  · rintro ⟨r, hx, hy⟩
    have hnx := isNaN_of_number? hx
    have hny := isNaN_of_number? hy
    exact ⟨hnx, hny, (rank_eq_iff_number? hnx hny).2 (hx.trans hy.symm)⟩

/-! ## Integers -/

theorem isWhole_iff : x.isWhole = true ↔ x.isFinite = true ∧ ∃ s : Int, x.signedMagnitude = s * twoTo 1074 := by
  have hdvd : (∃ s : Int, x.signedMagnitude = s * twoTo 1074) ↔ x.magnitude % twoTo 1074 = 0 := by
    rw [← Nat.dvd_iff_mod_eq_zero, ← Int.natCast_dvd_natCast, dvd_iff_exists_eq_mul_left, signedMagnitude]
    split
    · exact ⟨fun ⟨s, hs⟩ => ⟨-s, by rw [Int.neg_mul, ← hs, Int.neg_neg]⟩, fun ⟨s, hs⟩ => ⟨-s, by rw [Int.neg_mul, ← hs]⟩⟩
    · rfl
  rw [isWhole, Bool.and_eq_true, beq_iff_eq, hdvd]

/-- **A whole double in range is cut to the integer that it is.** -/
theorem toInt_truncate {s : Int} (hf : x.isFinite = true) (hs : x.signedMagnitude = s * twoTo 1074)
    (hmin : -2 ^ 63 ≤ s) (hmax : s < 2 ^ 63) : x.truncate.toInt = s := by
  have hpos : (twoTo 1074 : Int) ≠ 0 := Int.natCast_ne_zero.2 (twoTo_pos 1074).ne'
  have hvalue : (if x.negative then -((x.magnitude / twoTo 1074 : Nat) : Int) else (x.magnitude / twoTo 1074 : Nat)) = s := by
    rw [signedMagnitude] at hs
    split at hs
    · have hmagnitude : (x.magnitude : Int) = -s * twoTo 1074 := by rw [Int.neg_mul, ← hs, Int.neg_neg]
      rw [if_pos ‹_›, Int.natCast_ediv, hmagnitude, Int.mul_ediv_cancel _ hpos, Int.neg_neg]
    · rw [if_neg ‹_›, Int.natCast_ediv, hs, Int.mul_ediv_cancel _ hpos]
  rw [truncate, isNaN_of_isFinite hf, if_neg Bool.false_ne_true]
  dsimp only
  rw [hvalue, Int64.toInt_minValue, Int64.toInt_maxValue, min_eq_left (by omega), max_eq_right hmin,
    Int64.toInt_ofInt_of_le hmin hmax]

/-- The double nearest to the least integer of 64 bits is that integer. -/
theorem signedMagnitude_ofInt_minValue : (ofInt Int64.minValue.toInt).signedMagnitude = -2 ^ 63 * twoTo 1074 := by
  decide +kernel

/-- The double nearest to the greatest integer of 64 bits is the integer after it. -/
theorem signedMagnitude_ofInt_maxValue : (ofInt Int64.maxValue.toInt).signedMagnitude = 2 ^ 63 * twoTo 1074 := by
  decide +kernel

/-- **The test for an integer** finds the whole doubles from `-2 ^ 63` on and below `2 ^ 63`. -/
theorem toInt64?_eq_some_iff_signedMagnitude {i : Int64} :
    x.toInt64? = some i ↔ x.isFinite = true ∧ x.signedMagnitude = i.toInt * twoTo 1074 := by
  have hpos : (0 : Int) < twoTo 1074 := Int.natCast_pos.2 (twoTo_pos 1074)
  have hrange : ∀ s : Int, x.isFinite = true → x.signedMagnitude = s * twoTo 1074 →
      ((ofInt Int64.minValue.toInt).le x = true ↔ -2 ^ 63 ≤ s) ∧ (x.lt (ofInt Int64.maxValue.toInt) = true ↔ s < 2 ^ 63) := by
    intro s hf hs
    rw [le_iff_signedMagnitude (by decide +kernel) (isNaN_of_isFinite hf),
      lt_iff_signedMagnitude (isNaN_of_isFinite hf) (by decide +kernel), signedMagnitude_ofInt_minValue,
      signedMagnitude_ofInt_maxValue, hs]
    exact ⟨Int.mul_le_mul_right hpos, Int.mul_lt_mul_right hpos⟩
  rw [toInt64?]
  constructor
  · intro h
    split at h
    · rename_i htest
      rw [Bool.and_eq_true, Bool.and_eq_true] at htest
      obtain ⟨⟨hwhole, hmin⟩, hmax⟩ := htest
      obtain ⟨hf, s, hs⟩ := isWhole_iff.1 hwhole
      obtain ⟨hmin', hmax'⟩ := hrange s hf hs
      rw [← Option.some.inj h, toInt_truncate hf hs (hmin'.1 hmin) (hmax'.1 hmax)]
      exact ⟨hf, hs⟩
    · cases h
  · rintro ⟨hf, hs⟩
    obtain ⟨hmin, hmax⟩ := hrange _ hf hs
    have hlow := Int64.le_toInt i
    have hhigh := Int64.toInt_lt i
    rw [isWhole_iff.2 ⟨hf, _, hs⟩, hmin.2 hlow, hmax.2 hhigh, if_pos (by rfl)]
    exact congrArg some (Int64.toInt_inj.1 (toInt_truncate hf hs hlow hhigh))

theorem toInt64?_of_isZero (hx : x.isZero = true) : x.toInt64? = some 0 := by
  have hword : x.unsignedWord = 0 := by simpa [isZero] using hx
  have hfinite : x.isFinite = true := by rw [isFinite, hword]; decide
  refine toInt64?_eq_some_iff_signedMagnitude.2 ⟨hfinite, ?_⟩
  rw [signedMagnitude, magnitude_eq_zero_iff.2 hword, Int64.toInt_zero, Int.zero_mul]
  split <;> rfl

/-- **Doubles that are equal are the same integer**, or neither is one. -/
theorem toInt64?_eq_of_numericEq (h : x.numericEq y = true) : x.toInt64? = y.toInt64? := by
  obtain ⟨-, -, rfl | ⟨hx, hy⟩⟩ := numericEq_iff.1 h
  · rfl
  · rw [toInt64?_of_isZero hx, toInt64?_of_isZero hy]

/-- **A double is an integer exactly when that integer is its number.** -/
theorem toInt64?_eq_some_iff {i : Int64} : x.toInt64? = some i ↔ x.toRat? = some (i.toInt : ℚ) := by
  have hcast : (x.signedMagnitude : ℚ) = i.toInt * 2 ^ 1074 ↔ x.signedMagnitude = i.toInt * twoTo 1074 := by
    rw [← Int.cast_inj (α := ℚ), Int.cast_mul, Int.cast_natCast, cast_twoTo]
  rw [toInt64?_eq_some_iff_signedMagnitude, toRat?_eq_some_iff, hcast]

end Binary64
end Interchange
