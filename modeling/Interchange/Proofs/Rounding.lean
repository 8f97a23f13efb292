import Interchange.Number.Binary64
import Interchange.Number.Word
import Mathlib.Tactic.Ring
/-!
# Rounding — what the exact divisions give

A quotient rounds to a natural that is at most a half away from it, and a double is found from any fraction that is
nearest to it (`nearestWord_eq`).
-/
namespace Interchange

theorem twoTo_pos (k : Nat) : 0 < twoTo k := Nat.pow_pos (by decide)

theorem twoTo_add (j k : Nat) : twoTo (j + k) = twoTo j * twoTo k := Nat.pow_add 2 j k

theorem twoTo_succ (k : Nat) : twoTo (k + 1) = 2 * twoTo k := Nat.pow_succ'

theorem twoTo_le {j k : Nat} (h : j ≤ k) : twoTo j ≤ twoTo k := Nat.pow_le_pow_right (by decide) h

theorem tenTo_pos (k : Nat) : 0 < tenTo k := Nat.pow_pos (by decide)

theorem tenTo_add (j k : Nat) : tenTo (j + k) = tenTo j * tenTo k := Nat.pow_add 10 j k

theorem tenTo_succ (k : Nat) : tenTo (k + 1) = 10 * tenTo k := Nat.pow_succ'

theorem tenTo_le {j k : Nat} (h : j ≤ k) : tenTo j ≤ tenTo k := Nat.pow_le_pow_right (by decide) h

/-! ## Words -/

theorem int64?_toInt (i : Int64) : int64? i.toInt = some i := by
  rw [int64?, if_pos ⟨Int64.minValue_le_toInt i, Int64.toInt_le i⟩, Int64.ofInt_toInt]

/-! ## Quotients -/

theorem divNearest_eq_or (tie : Tie) (num den : Nat) :
    divNearest tie num den = num / den ∨ divNearest tie num den = num / den + 1 := by
  unfold divNearest
  dsimp only
  split
  · exact .inl rfl
  · split
    · exact .inr rfl
    · cases tie with
      | up => exact .inr rfl
      | toEven => rw [Tie.pick]; omega

/-- **A quotient rounds to the natural at most a half away from it**, an even one if it is exactly a half away. -/
theorem divNearest_eq {num den k : Nat} (hden : 0 < den) (hlo : 2 * (k * den) ≤ 2 * num + den)
    (hhi : 2 * num ≤ 2 * (k * den) + den)
    (hodd : k % 2 = 1 → 2 * (k * den) < 2 * num + den ∧ 2 * num < 2 * (k * den) + den) :
    divNearest .toEven num den = k := by
  have hnum : num / den * den + num % den = num := Nat.div_add_mod' num den
  have hr : num % den < den := Nat.mod_lt _ hden
  unfold divNearest Tie.pick
  dsimp only
  generalize num / den = q at *
  generalize num % den = r at *
  have hkq : k = q ∨ k = q + 1 := by
    have h1 : k < q + 2 := by
      by_contra hk
      have := Nat.mul_le_mul_right den (Nat.le_of_not_lt hk)
      rw [Nat.add_mul] at this
      omega
    have h2 : q < k + 1 := by
      by_contra hk
      have := Nat.mul_le_mul_right den (Nat.le_of_not_lt hk)
      rw [Nat.add_mul] at this
      omega
    omega
  rcases hkq with rfl | rfl
  · split
    · rfl
    · split <;> omega
  · rw [Nat.add_mul] at hlo hhi hodd
    split
    · omega
    · split <;> omega

/-! ## Decimal lengths -/

theorem decimalLengthWithin_spec : ∀ (fuel n : Nat), n < twoTo fuel →
    n < tenTo (decimalLengthWithin fuel n) ∧ (n ≠ 0 → tenTo (decimalLengthWithin fuel n) ≤ 10 * n)
  | 0, n, hn => by
    have hn0 : n = 0 := by simpa [twoTo] using hn
    rw [hn0]
    exact ⟨tenTo_pos _, fun h => absurd rfl h⟩
  | fuel + 1, n, hn => by
    rw [decimalLengthWithin]
    split
    · rename_i hn0
      rw [hn0]
      exact ⟨tenTo_pos _, fun h => absurd rfl h⟩
    · have hdiv : n / 10 < twoTo fuel := by
        rw [twoTo_succ] at hn
        omega
      obtain ⟨hlt, hge⟩ := decimalLengthWithin_spec fuel (n / 10) hdiv
      rw [tenTo_succ]
      refine ⟨by omega, fun _ => ?_⟩
      by_cases h0 : n / 10 = 0
      · rw [h0]
        have : decimalLengthWithin fuel 0 = 0 := by cases fuel <;> rfl
        rw [this]
        have : tenTo 0 = 1 := rfl
        omega
      · have := hge h0
        omega

theorem lt_tenTo_decimalLength (n : Nat) : n < tenTo (decimalLength n) :=
  (decimalLengthWithin_spec _ n Nat.lt_log2_self).1

theorem tenTo_decimalLength_le {n : Nat} (hn : n ≠ 0) : tenTo (decimalLength n) ≤ 10 * n :=
  (decimalLengthWithin_spec _ n Nat.lt_log2_self).2 hn

theorem decimalLength_pos {n : Nat} (hn : n ≠ 0) : 0 < decimalLength n := by
  by_contra h0
  have hlt := lt_tenTo_decimalLength n
  rw [Nat.eq_zero_of_not_pos h0] at hlt
  exact hn (Nat.lt_one_iff.1 hlt)

theorem tenTo_decimalExponent_le {num den : Nat} (hnum : 0 < num) (hden : 0 < den) :
    den * tenTo (decimalExponent num den).toNat ≤ num * tenTo (-decimalExponent num den).toNat := by
  unfold decimalExponent
  split
  · rename_i hle
    have hq : num / den ≠ 0 := (Nat.div_pos hle hden).ne'
    have hlen := tenTo_decimalLength_le hq
    have hmul : num / den * den ≤ num := Nat.div_mul_le_self num den
    obtain ⟨k, hk⟩ := Nat.exists_eq_add_of_lt (decimalLength_pos hq)
    rw [hk, Nat.zero_add] at hlen ⊢
    rw [tenTo_succ] at hlen
    have e1 : (((k + 1 : Nat) : Int) - 1).toNat = k := by omega
    have e2 : (-(((k + 1 : Nat) : Int) - 1)).toNat = 0 := by omega
    have e3 : tenTo 0 = 1 := rfl
    rw [e1, e2, e3]
    have := Nat.mul_le_mul_left den (show tenTo k ≤ num / den by omega)
    rw [Nat.mul_comm den (num / den)] at this
    omega
  · rename_i hlt
    generalize hr : (den + num - 1) / num = r
    have hceil : den ≤ num * r := by
      have h1 := Nat.div_add_mod (den + num - 1) num
      have h2 := Nat.mod_lt (den + num - 1) hnum
      rw [hr] at h1
      omega
    have hlen := lt_tenTo_decimalLength (r - 1)
    have e1 : (-(decimalLength (r - 1) : Int)).toNat = 0 := by omega
    have e2 : (-(-(decimalLength (r - 1) : Int))).toNat = decimalLength (r - 1) := by omega
    have e3 : tenTo 0 = 1 := rfl
    rw [e1, e2, e3, Nat.mul_one]
    exact Nat.le_trans hceil (Nat.mul_le_mul_left num (by omega))

theorem lt_tenTo_decimalExponent {num den : Nat} (hnum : 0 < num) (hden : 0 < den) :
    num * tenTo (-(decimalExponent num den + 1)).toNat < den * tenTo (decimalExponent num den + 1).toNat := by
  have e0 : tenTo 0 = 1 := rfl
  unfold decimalExponent
  split
  · have hlen := (Nat.div_lt_iff_lt_mul hden).1 (lt_tenTo_decimalLength (num / den))
    rw [show (-((decimalLength (num / den) : Int) - 1 + 1)).toNat = 0 by omega,
      show ((decimalLength (num / den) : Int) - 1 + 1).toNat = decimalLength (num / den) by omega, e0, Nat.mul_one, Nat.mul_comm]
    exact hlen
  · rename_i hlt
    generalize hr : (den + num - 1) / num = r
    have hceil : num * (r - 1) < den := by
      have h1 := Nat.div_add_mod (den + num - 1) num
      rw [hr] at h1
      rw [Nat.mul_sub, Nat.mul_one]
      omega
    have hr0 : r - 1 ≠ 0 := by
      have := (Nat.le_div_iff_mul_le hnum).2 (show 2 * num ≤ den + num - 1 by omega)
      omega
    have hlen := tenTo_decimalLength_le hr0
    obtain ⟨k, hk⟩ := Nat.exists_eq_add_of_lt (decimalLength_pos hr0)
    rw [hk, Nat.zero_add] at hlen ⊢
    rw [tenTo_succ] at hlen
    rw [show (-(-((k + 1 : Nat) : Int) + 1)).toNat = k by omega, show (-((k + 1 : Nat) : Int) + 1).toNat = 0 by omega, e0,
      Nat.mul_one]
    exact Nat.lt_of_le_of_lt (Nat.mul_le_mul_left num (by omega)) hceil

theorem scaledQuotient_eq (num den : Nat) (scale : Int) :
    scaledQuotient num den scale = (num * tenTo (-scale).toNat, den * tenTo scale.toNat) := by
  unfold scaledQuotient
  have e : tenTo 0 = 1 := rfl
  split
  · rw [show (-scale).toNat = 0 by omega, e, Nat.mul_one]
  · rw [show scale.toNat = 0 by omega, e, Nat.mul_one]

/-! ## Patterns -/

namespace Binary64

theorem log2_sub_eq {n u : Nat} (hlow : u = 0 ∨ twoTo (u + 52) ≤ n) (hhigh : n < twoTo (u + 53)) : n.log2 - 52 = u := by
  by_cases hn : n = 0
  · subst hn
    rcases hlow with rfl | hlow
    · rfl
    · have := twoTo_pos (u + 52); omega
  · have h1 : n.log2 < u + 53 := (Nat.log2_lt hn).2 hhigh
    rcases hlow with rfl | hlow
    · omega
    · have h2 : u + 52 ≤ n.log2 := (Nat.le_log2 hn).2 hlow
      omega

/-- **The pattern nearest to a fraction**: that of the significand nearest to it, in the unit that leaves 53 bits. -/
theorem nearestWord_eq {num den u k : Nat} (hden : 0 < den)
    (hlow : u = 0 ∨ twoTo (u + 52) * den ≤ num * twoTo 1074) (hhigh : num * twoTo 1074 < twoTo (u + 53) * den)
    (hlo : 2 * (k * (den * twoTo u)) ≤ 2 * (num * twoTo 1074) + den * twoTo u)
    (hhi : 2 * (num * twoTo 1074) ≤ 2 * (k * (den * twoTo u)) + den * twoTo u)
    (hodd : k % 2 = 1 → 2 * (k * (den * twoTo u)) < 2 * (num * twoTo 1074) + den * twoTo u ∧
      2 * (num * twoTo 1074) < 2 * (k * (den * twoTo u)) + den * twoTo u)
    (hword : u * twoTo 52 + k ≤ infinityWord) : nearestWord num den = u * twoTo 52 + k := by
  unfold nearestWord
  dsimp only
  rw [log2_sub_eq (hlow.imp_right fun h => (Nat.le_div_iff_mul_le hden).2 h) ((Nat.div_lt_iff_lt_mul hden).2 hhigh),
    divNearest_eq (Nat.mul_pos hden (twoTo_pos u)) hlo hhi hodd, Nat.min_eq_left hword]

/-! ## Integers -/

theorem unsignedWord_ofWord (negative : Bool) {w : Nat} (hw : w < twoTo 63) : (ofWord negative w).unsignedWord = w := by
  have h63 : twoTo 63 = 9223372036854775808 := rfl
  rw [unsignedWord, ofWord, word]
  rw [h63] at hw ⊢
  cases negative with
  | true => rw [if_pos rfl, UInt64.toNat_ofNat_of_lt' (by show _ < 2 ^ 64; omega)]; omega
  | false => rw [if_neg Bool.false_ne_true, UInt64.toNat_ofNat_of_lt' (by show _ < 2 ^ 64; omega)]; omega

/-- **A natural of 64 bits has a pattern far from the infinity.** -/
theorem nearestWord_lt {n : Nat} (hn : n < twoTo 64) : nearestWord n 1 < infinityWord := by
  have hscaled : n * twoTo 1074 < twoTo (64 + 1074) := by
    rw [twoTo_add]
    exact Nat.mul_lt_mul_of_pos_right hn (twoTo_pos 1074)
  unfold nearestWord
  dsimp only
  rw [Nat.div_one, Nat.one_mul]
  generalize n * twoTo 1074 = scaled at hscaled
  have hlog : scaled.log2 < 64 + 1074 := by
    have hlt : ∀ k, scaled ≠ 0 → scaled < twoTo k → scaled.log2 < k := fun k h0 => (Nat.log2_lt h0).2
    by_cases h0 : scaled = 0
    · rw [h0]; decide
    · exact hlt _ h0 hscaled
  have hquotient : scaled / twoTo (scaled.log2 - 52) < twoTo 53 := by
    rw [Nat.div_lt_iff_lt_mul (twoTo_pos _), ← twoTo_add]
    exact Nat.lt_of_lt_of_le Nat.lt_log2_self (twoTo_le (by omega))
  have hrounded : divNearest .toEven scaled (twoTo (scaled.log2 - 52)) ≤ twoTo 53 := by
    rcases divNearest_eq_or .toEven scaled (twoTo (scaled.log2 - 52)) with h | h <;> omega
  have h53 : twoTo 53 = 2 * twoTo 52 := twoTo_succ 52
  have hpos := twoTo_pos 52
  refine Nat.lt_of_le_of_lt (Nat.min_le_left _ _) ?_
  rw [infinityWord]
  calc (scaled.log2 - 52) * twoTo 52 + divNearest .toEven scaled (twoTo (scaled.log2 - 52))
      ≤ 1085 * twoTo 52 + 2 * twoTo 52 :=
        Nat.add_le_add (Nat.mul_le_mul_right _ (by omega)) (hrounded.trans_eq h53)
    _ = 1087 * twoTo 52 := (Nat.add_mul _ _ _).symm
    _ < 2047 * twoTo 52 := Nat.mul_lt_mul_of_pos_right (by decide) hpos

/-- **The double nearest to an integer of 64 bits is finite.** -/
theorem isFinite_ofInt {i : Int} (hi : i.natAbs < twoTo 64) : (ofInt i).isFinite = true := by
  have hlt := nearestWord_lt hi
  have h63 : infinityWord ≤ twoTo 63 := by decide
  rw [ofInt, ofRatio, isFinite, unsignedWord_ofWord _ (Nat.lt_of_lt_of_le hlt h63)]
  exact decide_eq_true hlt

theorem isNaN_of_isFinite {x : Binary64} (hf : x.isFinite = true) : x.isNaN = false :=
  decide_eq_false (Nat.not_lt.2 (Nat.le_of_lt (of_decide_eq_true hf)))

end Binary64

end Interchange
