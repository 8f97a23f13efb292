import Interchange.Proofs.Digits
import Mathlib.Data.Int.Log
import Mathlib.Data.Rat.Floor
import Mathlib.Tactic.Linarith
/-!
# Significant — numbers rounded to significant digits

A rational number is rounded to significant digits at the place that its decimal exponent gives, a tie going to the even digit
(`Decimal.roundSignificant`).  Rounding can carry into the next exponent, but only onto the power of ten there, so rounding
once more at the place that the exponent of the result gives changes nothing (`Decimal.roundTo_exponent`).  A double is
rounded so (`Binary64.value_rounded`).
-/
namespace Interchange

namespace Decimal

variable {q r : ℚ} {k e : Int}

/-- **The integer nearest to a number**, the even one of two. -/
def nearest (q : ℚ) : Int :=
  if 2 * Int.fract q < 1 then ⌊q⌋ else if 1 < 2 * Int.fract q then ⌊q⌋ + 1 else ⌊q⌋ + ⌊q⌋ % 2

/-- **A number rounded to a multiple of `10 ^ scale`**, the nearest one, and the even one of two. -/
def roundTo (scale : Int) (q : ℚ) : ℚ := nearest (q / 10 ^ scale) * 10 ^ scale

/-- The decimal exponent of a number: the `e` with `10 ^ e ≤ |q| < 10 ^ (e + 1)`. -/
def exponent (q : ℚ) : Int := Int.log 10 |q|

/-- **A number rounded to significant decimal digits.** -/
def roundSignificant (count : Nat) (q : ℚ) : ℚ := roundTo (exponent q - (count - 1 : Nat)) q

/-! ## The nearest integer -/

theorem nearest_spec (q : ℚ) : |q - nearest q| ≤ 1 / 2 ∧ (|q - nearest q| = 1 / 2 → nearest q % 2 = 0) := by
  have hfloor := Int.floor_add_fract q
  have hlow := Int.fract_nonneg q
  have hhigh := Int.fract_lt_one q
  rw [nearest]
  generalize Int.fract q = f at *
  generalize ⌊q⌋ = n at *
  subst hfloor
  split
  · rw [add_sub_cancel_left, abs_of_nonneg hlow]
    exact ⟨by linarith, fun h => by linarith⟩
  · split
    · rw [Int.cast_add, Int.cast_one, add_sub_add_left_eq_sub, abs_of_nonpos (by linarith)]
      exact ⟨by linarith, fun h => by linarith⟩
    · obtain rfl : f = 1 / 2 := by linarith
      refine ⟨?_, fun _ => by omega⟩
      rw [Int.cast_add, add_sub_add_left_eq_sub]
      rcases Int.emod_two_eq_zero_or_one n with h | h <;> rw [h] <;> norm_num [abs_of_nonneg, abs_of_nonpos]

/-- **The nearest integer is the only one a half away at most**, and even if it is a half away. -/
theorem nearest_eq (hle : |q - k| ≤ 1 / 2) (heven : |q - k| = 1 / 2 → k % 2 = 0) : nearest q = k := by
  obtain ⟨hle', heven'⟩ := nearest_spec q
  generalize nearest q = m at *
  have hbetween := abs_le.1 hle
  have hbetween' := abs_le.1 hle'
  have hmk : m ≤ k + 1 := by exact_mod_cast (show (m : ℚ) ≤ k + 1 by linarith)
  have hkm : k ≤ m + 1 := by exact_mod_cast (show (k : ℚ) ≤ m + 1 by linarith)
  -- of two neighbours the number is a half away from each, and one of them is odd
  rcases Int.lt_trichotomy m k with hlt | heq | hgt
  · obtain rfl : k = m + 1 := by omega
    rw [Int.cast_add, Int.cast_one] at hbetween hle heven
    have h1 := heven (by rw [abs_of_nonpos] <;> linarith)
    have h2 := heven' (by rw [abs_of_nonneg] <;> linarith)
    omega
  · exact heq
  · obtain rfl : m = k + 1 := by omega
    rw [Int.cast_add, Int.cast_one] at hbetween' hle' heven'
    have h1 := heven' (by rw [abs_of_nonpos] <;> linarith)
    have h2 := heven (by rw [abs_of_nonneg] <;> linarith)
    omega

theorem nearest_neg (q : ℚ) : nearest (-q) = -nearest q := by
  obtain ⟨hle, heven⟩ := nearest_spec q
  have hsub : -q - ((-nearest q : Int) : ℚ) = -(q - nearest q) := by push_cast; ring
  refine nearest_eq ?_ fun h => ?_
  · rwa [hsub, abs_neg]
  · rw [hsub, abs_neg] at h
    have := heven h
    omega

theorem le_nearest (h : (k : ℚ) ≤ q) : k ≤ nearest q := by
  have hbetween := abs_le.1 (nearest_spec q).1
  have hlt : k < nearest q + 1 := by exact_mod_cast (show (k : ℚ) < nearest q + 1 by linarith)
  omega

theorem nearest_le (h : q ≤ k) : nearest q ≤ k := by
  have hbetween := abs_le.1 (nearest_spec q).1
  have hlt : nearest q < k + 1 := by exact_mod_cast (show (nearest q : ℚ) < k + 1 by linarith)
  omega

/-- **A quotient of naturals rounds to its nearest integer.** -/
theorem nearest_div {num den : Nat} (hden : 0 < den) : nearest (num / den) = divNearest .toEven num den := by
  have hpos : (0 : ℚ) < den := Nat.cast_pos.2 hden
  have hlow : 2 * ((num % den : Nat) / den : ℚ) < 1 ↔ 2 * (num % den) < den := by
    rw [← mul_div_assoc, div_lt_one hpos]
    exact_mod_cast Iff.rfl
  have hhigh : 1 < 2 * ((num % den : Nat) / den : ℚ) ↔ den < 2 * (num % den) := by
    rw [← mul_div_assoc, one_lt_div hpos]
    exact_mod_cast Iff.rfl
  rw [nearest, Int.fract_div_natCast_eq_div_natCast_mod, Rat.floor_natCast_div_natCast, divNearest, Tie.pick]
  simp only [hlow, hhigh]
  split
  · rfl
  · split <;> push_cast <;> rfl

/-! ## Decimal exponents -/

theorem ten_pos (e : Int) : (0 : ℚ) < 10 ^ e := zpow_pos (by norm_num) e

theorem pow_mul_zpow (n : Nat) (e : Int) : (10 : ℚ) ^ n * 10 ^ (e - n) = 10 ^ e := by
  rw [← zpow_natCast, ← zpow_add₀ (by norm_num), add_sub_cancel]

theorem exponent_neg (q : ℚ) : exponent (-q) = exponent q := by rw [exponent, exponent, abs_neg]

theorem zpow_exponent_le (hq : 0 < q) : 10 ^ exponent q ≤ q := by
  rw [exponent, abs_of_pos hq]
  exact Int.zpow_log_le_self (b := 10) (by decide) hq

theorem lt_zpow_exponent (hq : 0 < q) : q < 10 ^ (exponent q + 1) := by
  rw [exponent, abs_of_pos hq]
  exact Int.lt_zpow_succ_log_self (b := 10) (by decide) q

/-- **The exponent is the only one with the number between its power of ten and the next.** -/
theorem exponent_eq (hlow : 10 ^ e ≤ q) (hhigh : q < 10 ^ (e + 1)) : exponent q = e := by
  have hq : 0 < q := (ten_pos e).trans_le hlow
  rw [exponent, abs_of_pos hq]
  refine Int.le_antisymm ?_ ((Int.zpow_le_iff_le_log (b := 10) (by decide) hq).1 hlow)
  exact Int.lt_add_one_iff.1 ((Int.lt_zpow_iff_log_lt (b := 10) (by decide) hq).1 hhigh)

/-! ## Rounding -/

theorem roundTo_neg (scale : Int) (q : ℚ) : roundTo scale (-q) = -roundTo scale q := by
  rw [roundTo, roundTo, neg_div, nearest_neg, Int.cast_neg, neg_mul]

theorem roundSignificant_neg (count : Nat) (q : ℚ) : roundSignificant count (-q) = -roundSignificant count q := by
  rw [roundSignificant, roundSignificant, exponent_neg, roundTo_neg]

theorem roundTo_abs (scale : Int) (q : ℚ) : roundTo scale q = (if q < 0 then -1 else 1) * roundTo scale |q| := by
  split
  · rename_i hneg
    rw [abs_of_neg hneg, roundTo_neg, neg_one_mul, neg_neg]
  · rename_i hpos
    rw [abs_of_nonneg (not_lt.1 hpos), one_mul]

theorem roundSignificant_abs (count : Nat) (q : ℚ) :
    roundSignificant count q = (if q < 0 then -1 else 1) * roundSignificant count |q| := by
  rw [roundSignificant, roundSignificant, exponent, exponent, abs_abs]
  exact roundTo_abs _ q

variable {n : Nat}

/-- **The digits of a rounded number** are as many as asked for, or it is the power of ten after them. -/
theorem nearest_bounds (hq : 0 < q) (n : Nat) :
    10 ^ n ≤ nearest (q / 10 ^ (exponent q - n)) ∧ nearest (q / 10 ^ (exponent q - n)) ≤ 10 ^ (n + 1) := by
  have hpos := ten_pos (exponent q - n)
  constructor
  · refine le_nearest ?_
    rw [le_div_iff₀ hpos]
    push_cast
    rw [pow_mul_zpow]
    exact zpow_exponent_le hq
  · refine nearest_le ?_
    rw [div_le_iff₀ hpos]
    push_cast
    rw [show exponent q - n = exponent q + 1 - (n + 1 : Nat) by omega, pow_mul_zpow]
    exact (lt_zpow_exponent hq).le

theorem roundTo_bounds (hq : 0 < q) (n : Nat) :
    10 ^ exponent q ≤ roundTo (exponent q - n) q ∧ roundTo (exponent q - n) q ≤ 10 ^ (exponent q + 1) := by
  obtain ⟨hlow, hhigh⟩ := nearest_bounds hq n
  have hlow' : (10 : ℚ) ^ n ≤ nearest (q / 10 ^ (exponent q - n)) := by exact_mod_cast hlow
  have hhigh' : (nearest (q / 10 ^ (exponent q - n)) : ℚ) ≤ 10 ^ (n + 1) := by exact_mod_cast hhigh
  constructor
  · rw [← pow_mul_zpow n]
    exact mul_le_mul_of_nonneg_right hlow' (ten_pos _).le
  · rw [← pow_mul_zpow (n + 1), show exponent q + 1 - (n + 1 : Nat) = exponent q - n by omega]
    exact mul_le_mul_of_nonneg_right hhigh' (ten_pos _).le

/-- **Rounded to one place less, a number that carries is the same power of ten.**  It is at most half of the finer unit below
it, a twentieth of the coarser one. -/
theorem roundTo_succ_of_eq (hcarry : roundTo (e - n) q = 10 ^ (e + 1)) : roundTo (e + 1 - n) q = 10 ^ (e + 1) := by
  have hpos := ten_pos (e - n)
  have hunit : (10 : ℚ) ^ (e + 1 - n) = 10 ^ (e - n) * 10 := by
    rw [show e + 1 - n = e - n + 1 by omega, zpow_add_one₀ (by norm_num)]
  have hpower : ((10 ^ (n + 1) : Int) : ℚ) * 10 ^ (e - n) = 10 ^ (e + 1) := by
    rw [← pow_mul_zpow (n + 1) (e + 1), show e + 1 - (n + 1 : Nat) = e - n by omega]
    push_cast
    rfl
  have hdigits : nearest (q / 10 ^ (e - n)) = 10 ^ (n + 1) :=
    Int.cast_injective (mul_right_cancel₀ hpos.ne' (hcarry.trans hpower.symm))
  have hclose := (nearest_spec (q / 10 ^ (e - n))).1
  rw [hdigits] at hclose
  push_cast at hclose
  have hcoarse : |q / 10 ^ (e + 1 - n) - ((10 ^ n : Int) : ℚ)| ≤ 1 / 20 := by
    have hscale : q / 10 ^ (e + 1 - n) - ((10 ^ n : Int) : ℚ) = (q / 10 ^ (e - n) - 10 ^ (n + 1)) / 10 := by
      rw [hunit, ← div_div, pow_succ, sub_div, mul_div_assoc]
      push_cast
      norm_num
    rw [hscale, abs_div, abs_of_pos (by norm_num : (0 : ℚ) < 10)]
    linarith
  have hnearest : nearest (q / 10 ^ (e + 1 - n)) = 10 ^ n := nearest_eq (by linarith) fun h => by linarith
  rw [roundTo, hnearest, ← pow_mul_zpow n (e + 1)]
  push_cast
  rfl

theorem roundTo_exponent_of_pos (hq : 0 < q) (n : Nat) :
    roundTo (exponent (roundTo (exponent q - n) q) - n) q = roundTo (exponent q - n) q := by
  obtain ⟨hlow, hhigh⟩ := roundTo_bounds hq n
  rcases hhigh.lt_or_eq with hlt | hcarry
  · rw [exponent_eq hlow hlt]
  · have hpower : exponent ((10 : ℚ) ^ (exponent q + 1)) = exponent q + 1 :=
      exponent_eq le_rfl (zpow_lt_zpow_right₀ (by norm_num) (Int.lt_succ _))
    rw [hcarry, hpower, roundTo_succ_of_eq hcarry]

/-- **Rounding once more, at the place that the exponent of the rounded number gives, changes nothing.** -/
theorem roundTo_exponent (h0 : q ≠ 0) (count : Nat) :
    roundTo (exponent (roundSignificant count q) - (count - 1 : Nat)) q = roundSignificant count q := by
  rcases lt_or_gt_of_ne h0 with hneg | hpos
  · obtain ⟨p, rfl⟩ : ∃ p, q = -p := ⟨-q, (neg_neg q).symm⟩
    rw [roundSignificant_neg, exponent_neg, roundTo_neg]
    exact congrArg Neg.neg (roundTo_exponent_of_pos (neg_lt_zero.1 hneg) _)
  · exact roundTo_exponent_of_pos hpos _

theorem roundSignificant_ne_zero (h0 : q ≠ 0) (count : Nat) : roundSignificant count q ≠ 0 := by
  have hpos : ∀ {p : ℚ}, 0 < p → roundSignificant count p ≠ 0 := fun hp =>
    ((ten_pos _).trans_le (roundTo_bounds hp _).1).ne'
  rcases lt_or_gt_of_ne h0 with hneg | hgt
  · rw [← neg_neg q, roundSignificant_neg]
    exact neg_ne_zero.2 (hpos (neg_pos.2 hneg))
  · exact hpos hgt

end Decimal

/-! ## Digits of doubles -/

theorem zpow_eq_div (e : Int) : (10 : ℚ) ^ e = tenTo e.toNat / tenTo (-e).toNat := by
  have hpos : ((10 : ℚ) ^ (-e).toNat) ≠ 0 := pow_ne_zero _ (by norm_num)
  rw [cast_tenTo, cast_tenTo, eq_div_iff hpos, ← zpow_natCast, ← zpow_natCast, ← zpow_add₀ (by norm_num)]
  congr 1
  omega

/-- **The decimal exponent of a quotient of naturals.** -/
theorem decimalExponent_eq {num den : Nat} (hnum : 0 < num) (hden : 0 < den) :
    decimalExponent num den = Decimal.exponent (num / den) := by
  have hpos : (0 : ℚ) < den := Nat.cast_pos.2 hden
  have hten : ∀ k, (0 : ℚ) < (tenTo k : Nat) := fun k => Nat.cast_pos.2 (tenTo_pos k)
  refine (Decimal.exponent_eq ?_ ?_).symm
  · rw [zpow_eq_div, div_le_div_iff₀ (hten _) hpos, mul_comm]
    exact_mod_cast tenTo_decimalExponent_le hnum hden
  · rw [zpow_eq_div, div_lt_div_iff₀ hpos (hten _), mul_comm (tenTo _ : ℚ)]
    exact_mod_cast lt_tenTo_decimalExponent hnum hden

namespace Digits

variable {d : Digits}

theorem digits_ne_zero (h : d.value ≠ 0) : d.digits ≠ 0 := fun h0 => h (by rw [value, h0, Nat.cast_zero, zero_mul])

/-- **The exponent of digits** is that of their number. -/
theorem exponent_eq (h0 : d.digits ≠ 0) : d.exponent = Decimal.exponent d.value := by
  have hlow := tenTo_decimalLength_le h0
  have hhigh := lt_tenTo_decimalLength d.digits
  obtain ⟨k, hk⟩ := Nat.exists_eq_add_of_lt (decimalLength_pos h0)
  rw [Nat.zero_add] at hk
  have hexponent : d.exponent = k + d.scale := by rw [exponent, point_eq h0, hk]; omega
  rw [hk, tenTo_succ] at hlow hhigh
  have hlow' : (10 : ℚ) ^ k ≤ d.digits := by rw [← cast_tenTo]; exact_mod_cast (by omega : tenTo k ≤ d.digits)
  have hhigh' : (d.digits : ℚ) < 10 ^ (k + 1) := by rw [← cast_tenTo, tenTo_succ]; exact_mod_cast hhigh
  rw [hexponent, value]
  refine (Decimal.exponent_eq ?_ ?_).symm
  · rw [zpow_add₀ (by norm_num), zpow_natCast]
    exact mul_le_mul_of_nonneg_right hlow' (Decimal.ten_pos _).le
  · rw [show (k : Int) + d.scale + 1 = (k + 1 : Nat) + d.scale by omega, zpow_add₀ (by norm_num), zpow_natCast]
    exact mul_lt_mul_of_pos_right hhigh' (Decimal.ten_pos _)

end Digits

namespace Binary64

variable {x : Binary64} {q : ℚ}

/-- **A double is rounded to places as its number is.** -/
theorem value_roundedTo (scale : Int) (x : Binary64) :
    (x.roundedTo scale).value = Decimal.roundTo scale (x.magnitude / 2 ^ 1074) := by
  have hden : 0 < twoTo 1074 * tenTo scale.toNat := Nat.mul_pos (twoTo_pos _) (tenTo_pos _)
  have hquotient : (x.magnitude / 2 ^ 1074 / 10 ^ scale : ℚ) =
      (x.magnitude * tenTo (-scale).toNat : Nat) / (twoTo 1074 * tenTo scale.toNat : Nat) := by
    rw [zpow_eq_div, ← cast_twoTo, Nat.cast_mul, Nat.cast_mul, div_div_div_eq]
  rw [roundedTo, scaledQuotient_eq]
  dsimp only
  rw [Digits.value_trim, Digits.value, Decimal.roundTo, hquotient, Decimal.nearest_div hden, Int.cast_natCast]

theorem isZero_of_toRat? (hq : x.toRat? = some q) (h0 : q ≠ 0) : x.isZero = false := by
  rw [isZero, beq_eq_false_iff_ne]
  exact fun hword => (magnitude_of_toRat? hq h0).1.ne' (magnitude_eq_zero_iff.2 hword)

/-- **A double is rounded to significant digits as its number is.** -/
theorem value_rounded (hq : x.toRat? = some q) (h0 : q ≠ 0) (count : Nat) :
    (x.rounded count).value = Decimal.roundSignificant count |q| := by
  obtain ⟨hpos, habs, -⟩ := magnitude_of_toRat? hq h0
  rw [rounded, isZero_of_toRat? hq h0, if_neg Bool.false_ne_true, value_roundedTo, decimalExponent_eq hpos (twoTo_pos 1074),
    cast_twoTo, habs, Decimal.roundSignificant]

/-- **Rounded digits end with no zero.** -/
theorem digits_roundedTo_mod_ne {scale : Int} (h : (x.roundedTo scale).value ≠ 0) :
    (x.roundedTo scale).digits % 10 ≠ 0 := by
  rw [roundedTo] at h ⊢
  dsimp only at h ⊢
  rw [Digits.value_trim] at h
  exact Digits.digits_trim_mod_ne (Digits.digits_ne_zero h)

theorem digits_rounded_mod_ne {count : Nat} (hzero : x.isZero = false) (h : (x.rounded count).value ≠ 0) :
    (x.rounded count).digits % 10 ≠ 0 := by
  rw [rounded, hzero, if_neg Bool.false_ne_true] at h ⊢
  exact digits_roundedTo_mod_ne h

end Binary64
end Interchange
