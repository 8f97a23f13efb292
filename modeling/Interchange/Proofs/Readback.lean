import Interchange.Number.Digits
import Interchange.Proofs.Rounding
/-!
# Readback — the shortest digits of a double read back

Every number in the rounding interval of a double reads as it (`nearestWord_of_contains`), however the number is written
as digits and a power of ten (`ofDecimal_eq`).  Some number of seventeen digits is in the interval, so the search for the
fewest digits ends in it (`holds_shortest`).
-/
namespace Interchange

theorem twoTo_52 : twoTo 52 = 4503599627370496 := rfl

theorem twoTo_53 : twoTo 53 = 9007199254740992 := rfl

namespace Binary64

/-! ## The parts of a pattern -/

section

variable (x : Binary64)

theorem unsignedWord_eq : x.unsignedWord = x.unit * twoTo 52 + x.significand := by
  have hdiv : x.exponentField * twoTo 52 + x.fraction = x.unsignedWord := Nat.div_add_mod' _ _
  rw [← hdiv]
  unfold unit significand
  rw [twoTo_52]
  split <;> omega

theorem significand_lt : x.significand < twoTo 53 := by
  have hfr : x.fraction < twoTo 52 := Nat.mod_lt _ (twoTo_pos 52)
  unfold significand
  rw [twoTo_52] at *
  rw [twoTo_53]
  split <;> omega

variable {x}

theorem le_significand (hu : x.unit ≠ 0) : twoTo 52 ≤ x.significand := by
  unfold unit at hu
  unfold significand
  split <;> omega

theorem significand_pos (hz : x.isZero = false) : 0 < x.significand := by
  have hdiv : x.exponentField * twoTo 52 + x.fraction = x.unsignedWord := Nat.div_add_mod' _ _
  have hw : x.unsignedWord ≠ 0 := by simpa [isZero] using hz
  unfold significand
  rw [twoTo_52] at *
  split
  · rename_i he
    rw [he] at hdiv
    omega
  · omega

theorem unit_le (hf : x.isFinite = true) : x.unit ≤ 2045 := by
  have hw : x.unsignedWord < 2047 * twoTo 52 := of_decide_eq_true hf
  have he : x.exponentField < 2047 := (Nat.div_lt_iff_lt_mul (twoTo_pos 52)).2 hw
  unfold unit
  omega

variable (x)

theorem ofWord_unsignedWord : ofWord x.negative x.unsignedWord = x := by
  have h63 : twoTo 63 = 9223372036854775808 := rfl
  have hlt : x.word < 18446744073709551616 := UInt64.toNat_lt x.bits
  have hw : (if x.negative = true then twoTo 63 else 0) + x.unsignedWord = x.word := by
    rw [unsignedWord, negative, h63]
    by_cases hn : x.word / 9223372036854775808 = 1
    · rw [if_pos (beq_iff_eq.2 hn)]; omega
    · rw [if_neg (by simpa using hn)]; omega
  rw [ofWord, hw, word, UInt64.ofNat_toNat]

variable {x}

theorem zero_eq (hz : x.isZero = true) : zero x.negative = x := by
  have hw : x.unsignedWord = 0 := by simpa [isZero] using hz
  rw [zero, ← hw, ofWord_unsignedWord]

theorem ofDecimal_zero (negative : Bool) (exponent : Int) : ofDecimal negative 0 exponent = zero negative := by
  unfold ofDecimal
  exact if_pos (.inl rfl)

end

/-! ## Numbers in the interval -/

/-- How far the interval of a double reaches below it, in quarters of its unit. -/
def reachBelow (x : Binary64) : Nat := if x.significand = twoTo 52 ∧ x.unit ≠ 0 then 1 else 2

/-- **What lies in an interval**: fractions at most so far away, and nearer if the significand is odd. -/
theorem contains_interval {x : Binary64} {num den : Nat} : x.interval.contains num den = true ↔
    4 * (x.significand * (den * twoTo x.unit)) ≤ 4 * (num * twoTo 1074) + x.reachBelow * (den * twoTo x.unit) ∧
    2 * (num * twoTo 1074) ≤ 2 * (x.significand * (den * twoTo x.unit)) + den * twoTo x.unit ∧
    (x.significand % 2 = 1 →
      4 * (x.significand * (den * twoTo x.unit)) < 4 * (num * twoTo 1074) + x.reachBelow * (den * twoTo x.unit) ∧
      2 * (num * twoTo 1074) < 2 * (x.significand * (den * twoTo x.unit)) + den * twoTo x.unit) := by
  have h4 : num * twoTo 1076 = 4 * (num * twoTo 1074) := by
    rw [show twoTo 1076 = twoTo 1074 * twoTo 2 from twoTo_add 1074 2, show twoTo 2 = 4 from rfl]
    ring
  have hlow : x.interval.lower * den =
      4 * (x.significand * (den * twoTo x.unit)) - x.reachBelow * (den * twoTo x.unit) := by
    unfold interval reachBelow magnitude
    dsimp only
    rw [Nat.sub_mul]
    split <;> ring_nf
  have hup : x.interval.upper * den = 4 * (x.significand * (den * twoTo x.unit)) + 2 * (den * twoTo x.unit) := by
    unfold interval magnitude
    dsimp only
    ring
  have hclosed : x.interval.closed = (x.significand % 2 == 0) := rfl
  unfold Interval.contains
  rw [h4, hlow, hup, hclosed]
  dsimp only
  split
  · rename_i heven
    have heven : x.significand % 2 = 0 := beq_iff_eq.1 heven
    simp only [Bool.and_eq_true, decide_eq_true_eq]
    omega
  · rename_i hodd
    have hodd : x.significand % 2 ≠ 0 := fun h => hodd (beq_iff_eq.2 h)
    simp only [Bool.and_eq_true, decide_eq_true_eq]
    -- an odd significand is at least one unit, so nothing is cut off at the lower end
    have hs := Nat.mul_le_mul_right (den * twoTo x.unit) (show 1 ≤ x.significand by omega)
    have hr := Nat.mul_le_mul_right (den * twoTo x.unit) (show x.reachBelow ≤ 2 by unfold reachBelow; split <;> omega)
    omega

/-- **A number less than a quarter of its unit below a power of two rounds to it**, though its own unit is half as
large. -/
theorem nearestWord_below {num den k : Nat} (hden : 0 < den)
    (hlo : 4 * (twoTo 52 * (den * twoTo (k + 1))) ≤ 4 * (num * twoTo 1074) + den * twoTo (k + 1))
    (hbelow : num * twoTo 1074 < twoTo 52 * (den * twoTo (k + 1)))
    (hfin : (k + 1) * twoTo 52 + twoTo 52 ≤ infinityWord) :
    nearestWord num den = (k + 1) * twoTo 52 + twoTo 52 := by
  have hhalf : den * twoTo (k + 1) = 2 * (den * twoTo k) := by rw [twoTo_succ]; ring
  have hpow : ∀ j, twoTo (k + j) * den = twoTo j * (den * twoTo k) := fun j => by rw [twoTo_add]; ring
  have hword : (k + 1) * twoTo 52 + twoTo 52 = k * twoTo 52 + twoTo 53 := by rw [twoTo_52, twoTo_53]; omega
  rw [hword] at hfin ⊢
  rw [hhalf] at hlo hbelow
  rw [twoTo_52] at hlo hbelow
  rw [twoTo_53] at *
  refine nearestWord_eq hden (.inr ?_) ?_ ?_ ?_ (fun ho => by omega) hfin
  · rw [hpow, twoTo_52]
    omega
  · rw [hpow, twoTo_53]
    omega
  · omega
  · omega

/-- **Every number in the interval of a double reads as it.** -/
theorem nearestWord_of_contains {x : Binary64} (hf : x.isFinite = true) {num den : Nat} (hden : 0 < den)
    (hc : x.interval.contains num den = true) : nearestWord num den = x.unsignedWord := by
  obtain ⟨hlo, hhi, hodd⟩ := contains_interval.1 hc
  have hfin : x.unit * twoTo 52 + x.significand ≤ infinityWord := by
    rw [← unsignedWord_eq]
    exact Nat.le_of_lt (by simpa [isFinite] using hf)
  have hs := x.significand_lt
  have hs' := @le_significand x
  have hpow : ∀ k, twoTo (x.unit + k) * den = twoTo k * (den * twoTo x.unit) := fun k => by rw [twoTo_add]; ring
  have hX : 0 < den * twoTo x.unit := Nat.mul_pos hden (twoTo_pos _)
  -- every bound is a multiple of the denominator times the unit
  have hmul := Nat.mul_le_mul_right (den * twoTo x.unit) (Nat.succ_le_of_lt hs)
  rw [Nat.succ_mul] at hmul
  rw [unsignedWord_eq]
  unfold reachBelow at hlo hodd
  by_cases hnear : x.unit = 0 ∨ twoTo 52 * (den * twoTo x.unit) ≤ num * twoTo 1074
  · refine nearestWord_eq hden (hnear.imp_right (hpow 52).trans_le) ?_ ?_ hhi ?_ hfin
    · rw [hpow]
      omega
    · split at hlo
      · rename_i hp
        rw [hp.1]
        omega
      · omega
    · intro ho
      refine ⟨?_, (hodd ho).2⟩
      have := (hodd ho).1
      split at this
      · rename_i hp
        rw [hp.1, twoTo_52] at ho
        omega
      · omega
  · obtain ⟨hu, hbelow⟩ := not_or.1 hnear
    -- only below a power of two can the number be nearer to a double in a smaller unit
    have hp : x.significand = twoTo 52 := by
      by_contra hne
      rw [if_neg fun h => hne h.1] at hlo
      have := Nat.mul_le_mul_right (den * twoTo x.unit) (show twoTo 52 + 1 ≤ x.significand by have := hs' hu; omega)
      rw [Nat.succ_mul] at this
      omega
    rw [if_pos ⟨hp, hu⟩] at hlo
    obtain ⟨k, hk⟩ := Nat.exists_eq_add_one_of_ne_zero hu
    rw [hp, hk] at hlo hfin ⊢
    rw [hk] at hbelow
    exact nearestWord_below hden (by omega) (by omega) hfin

/-! ## Decimal numbers -/

/-- **A decimal number in the interval of a double.** -/
def Holds (x : Binary64) (digits : Nat) (scale : Int) : Prop :=
  x.interval.contains (digits * tenTo scale.toNat) (tenTo (-scale).toNat) = true

theorem Interval.contains_eq (i : Interval) {num den num' den' : Nat} (hden : 0 < den) (hden' : 0 < den')
    (h : num * den' = num' * den) : i.contains num den = i.contains num' den' := by
  have hv : num * twoTo 1076 * den' = num' * twoTo 1076 * den := by
    rw [Nat.mul_right_comm, h, Nat.mul_right_comm]
  have hle : ∀ b, b * den ≤ num * twoTo 1076 ↔ b * den' ≤ num' * twoTo 1076 := fun b => by
    rw [← Nat.mul_le_mul_right_iff hden', hv, Nat.mul_right_comm, Nat.mul_le_mul_right_iff hden]
  have hge : ∀ b, num * twoTo 1076 ≤ b * den ↔ num' * twoTo 1076 ≤ b * den' := fun b => by
    rw [← Nat.mul_le_mul_right_iff hden', hv, Nat.mul_right_comm b, Nat.mul_le_mul_right_iff hden]
  unfold contains
  simp only [hle, hge, ← Nat.not_le]

section

variable {x : Binary64} {digits : Nat} {scale : Int}

theorem Holds.mul_ten : x.Holds (digits * 10) scale ↔ x.Holds digits (scale + 1) := by
  unfold Holds
  rw [Interval.contains_eq _ (tenTo_pos _) (tenTo_pos _)]
  by_cases hs : 0 ≤ scale
  · rw [show (scale + 1).toNat = scale.toNat + 1 by omega, show (-scale).toNat = 0 by omega,
      show (-(scale + 1)).toNat = 0 by omega, tenTo_succ]
    ring
  · rw [show (scale + 1).toNat = 0 by omega, show scale.toNat = 0 by omega,
      show (-scale).toNat = (-(scale + 1)).toNat + 1 by omega, tenTo_succ]
    ring

/-- **Zeros at the end of the digits can be part of the scale.** -/
theorem Holds.mul_tenTo (k : Nat) : x.Holds (digits * tenTo k) (scale - k) ↔ x.Holds digits scale := by
  induction k with
  | zero => rw [show tenTo 0 = 1 from rfl, Nat.mul_one]; simp
  | succ k ih =>
    rw [← ih, tenTo_succ, Nat.mul_comm 10, ← Nat.mul_assoc, Holds.mul_ten]
    rw [show scale - ((k + 1 : Nat) : Int) + 1 = scale - k by omega]

theorem Holds.bounds (hf : x.isFinite = true) (hz : x.isZero = false) (h : x.Holds digits scale) :
    tenTo (-scale).toNat ≤ digits * tenTo scale.toNat * twoTo 1076 ∧
      digits * tenTo scale.toNat < twoTo 1024 * tenTo (-scale).toNat := by
  obtain ⟨hlo, hhi, -⟩ := contains_interval.1 h
  have hpos := significand_pos hz
  have hlt := x.significand_lt
  have hden := tenTo_pos (-scale).toNat
  generalize digits * tenTo scale.toNat = num at *
  generalize tenTo (-scale).toNat = den at *
  have hX : den ≤ den * twoTo x.unit := Nat.le_mul_of_pos_right den (twoTo_pos _)
  have hX' : den * twoTo x.unit ≤ den * twoTo 2045 :=
    Nat.mul_le_mul_left den (twoTo_le (unit_le hf))
  have h1 := Nat.mul_le_mul_right (den * twoTo x.unit) (Nat.succ_le_of_lt hpos)
  have h2 := Nat.mul_le_mul_right (den * twoTo x.unit) (Nat.succ_le_of_lt hlt)
  rw [Nat.succ_mul] at h1 h2
  constructor
  · rw [show 1076 = 1074 + 2 from rfl, twoTo_add, ← Nat.mul_assoc, show twoTo 2 = 4 from rfl]
    unfold reachBelow at hlo
    split at hlo <;> omega
  · refine Nat.lt_of_mul_lt_mul_right (a := twoTo 1074) ?_
    rw [Nat.mul_right_comm, ← twoTo_add, show 1024 + 1074 = 53 + 2045 from rfl, twoTo_add, Nat.mul_assoc,
      Nat.mul_comm _ den]
    rw [twoTo_53] at *
    omega

theorem Holds.digits_ne (hf : x.isFinite = true) (hz : x.isZero = false) (h : x.Holds digits scale) : digits ≠ 0 := by
  intro h0
  have hlo := (h.bounds hf hz).1
  have := tenTo_pos (-scale).toNat
  rw [h0, Nat.zero_mul, Nat.zero_mul] at hlo
  omega

/-- **The decimal point of a number in an interval** is within reach of its digits. -/
theorem Holds.point_bounds (hf : x.isFinite = true) (hz : x.isZero = false) (h : x.Holds digits scale) :
    -330 ≤ (decimalLength digits : Int) + scale ∧ (decimalLength digits : Int) + scale ≤ 310 := by
  obtain ⟨hlo, hhi⟩ := h.bounds hf hz
  have hlt := lt_tenTo_decimalLength digits
  have hge := tenTo_decimalLength_le (h.digits_ne hf hz)
  constructor
  · by_contra hc
    have hs : decimalLength digits + 330 ≤ (-scale).toNat := by omega
    have h330 : twoTo 1076 ≤ tenTo 330 := by decide +kernel
    have := tenTo_le hs
    rw [show scale.toNat = 0 by omega, show tenTo 0 = 1 from rfl, Nat.mul_one] at hlo
    rw [tenTo_add] at this
    have := Nat.mul_lt_mul_of_lt_of_le hlt h330 (tenTo_pos _)
    omega
  · by_contra hc
    have h310 : twoTo 1024 * 10 ≤ tenTo 310 := by decide +kernel
    have hs : 310 + (-scale).toNat ≤ decimalLength digits + scale.toNat := by omega
    have h1 := tenTo_le hs
    have h2 := Nat.mul_le_mul_right (tenTo scale.toNat) hge
    have h3 := Nat.mul_le_mul_right (tenTo (-scale).toNat) h310
    rw [tenTo_add, tenTo_add] at h1
    rw [Nat.mul_assoc] at h2
    rw [Nat.mul_right_comm] at h3
    omega

/-- **Reading a decimal number that lies in the interval of a double gives the double.**  The two short cuts for huge and
tiny numbers are not taken. -/
theorem ofDecimal_eq (hf : x.isFinite = true) (hz : x.isZero = false) (h : x.Holds digits scale) :
    ofDecimal x.negative digits scale = x := by
  have hd := h.digits_ne hf hz
  obtain ⟨hlow, hhigh⟩ := h.point_bounds hf hz
  unfold ofDecimal
  dsimp only
  rw [if_neg (by omega), if_neg (by omega), scaledQuotient_eq]
  dsimp only
  rw [neg_neg, Nat.one_mul]
  unfold ofRatio
  rw [nearestWord_of_contains hf (tenTo_pos _) h]
  exact x.ofWord_unsignedWord

end

/-! ## The search for digits -/

section

variable {x : Binary64}

theorem gridPoint?_holds {tie : Tie} {scale : Int} {d : Nat} (h : gridPoint? tie x scale = some d) : x.Holds d scale := by
  unfold gridPoint? at h
  rw [scaledQuotient_eq] at h
  simp only [scaledQuotient_eq, neg_neg, Nat.one_mul] at h
  split at h
  · rename_i h1 h2
    rw [← Option.some.inj h]
    rcases divNearest_eq_or tie (x.magnitude * tenTo (-scale).toNat) (twoTo 1074 * tenTo scale.toNat) with hd | hd
    · rw [hd]; exact h1
    · rw [hd]; exact h2
  · rename_i h1 h2
    rw [← Option.some.inj h]; exact h1
  · rename_i h1 h2
    rw [← Option.some.inj h]; exact h2
  · exact nomatch h

theorem isSome_gridPoint? {tie : Tie} {scale : Int} {d : Nat} (hd : x.Holds d scale)
    (hnext : d = x.magnitude * tenTo (-scale).toNat / (twoTo 1074 * tenTo scale.toNat) ∨
      d = x.magnitude * tenTo (-scale).toNat / (twoTo 1074 * tenTo scale.toNat) + 1) :
    (gridPoint? tie x scale).isSome = true := by
  unfold Holds at hd
  unfold gridPoint?
  rw [scaledQuotient_eq]
  simp only [scaledQuotient_eq, neg_neg, Nat.one_mul]
  rcases hnext with rfl | rfl
  · rw [hd]
    split <;> first | rfl | simp_all
  · rw [hd]
    split <;> first | rfl | simp_all

/-- **On a grid ten to the sixteenth times finer than the double, the nearest point is in its interval.** -/
theorem holds_of_near {scale : Int} {d : Nat}
    (hfine : twoTo 1074 * tenTo scale.toNat * tenTo 16 ≤ x.magnitude * tenTo (-scale).toNat)
    (hlo : 2 * (x.magnitude * tenTo (-scale).toNat) ≤
      2 * (d * (twoTo 1074 * tenTo scale.toNat)) + twoTo 1074 * tenTo scale.toNat)
    (hhi : 2 * (d * (twoTo 1074 * tenTo scale.toNat)) ≤
      2 * (x.magnitude * tenTo (-scale).toNat) + twoTo 1074 * tenTo scale.toNat) : x.Holds d scale := by
  unfold Holds
  rw [contains_interval]
  have hs := x.significand_lt
  have hX : 0 < tenTo (-scale).toNat * twoTo x.unit := Nat.mul_pos (tenTo_pos _) (twoTo_pos _)
  have hmag : x.magnitude * tenTo (-scale).toNat = x.significand * (tenTo (-scale).toNat * twoTo x.unit) := by
    rw [magnitude]
    ring
  have hN : d * tenTo scale.toNat * twoTo 1074 = d * (twoTo 1074 * tenTo scale.toNat) := by ring
  rw [hmag] at hfine hlo hhi
  rw [hN]
  generalize twoTo 1074 * tenTo scale.toNat = den at *
  generalize d * den = N at *
  unfold reachBelow
  generalize tenTo (-scale).toNat * twoTo x.unit = X at *
  have h16 : tenTo 16 = 10000000000000000 := rfl
  have hmul := Nat.mul_le_mul_right X (Nat.succ_le_of_lt hs)
  rw [Nat.succ_mul] at hmul
  rw [twoTo_53] at hmul
  rw [h16] at hfine
  split
  · rename_i hp
    rw [hp.1, twoTo_52] at hfine hlo hhi hmul ⊢
    omega
  · omega

theorem fine_of_le {a b : Nat} {e : Int} (k : Nat) (h : a * tenTo e.toNat ≤ b * tenTo (-e).toNat) :
    a * tenTo (e - k).toNat * tenTo k ≤ b * tenTo (-(e - k)).toNat := by
  refine Nat.le_of_mul_le_mul_right (c := tenTo (-e).toNat) ?_ (tenTo_pos _)
  calc a * tenTo (e - k).toNat * tenTo k * tenTo (-e).toNat
      = a * tenTo e.toNat * tenTo (-(e - k)).toNat := by
        rw [Nat.mul_assoc, Nat.mul_assoc, ← tenTo_add, ← tenTo_add, Nat.mul_assoc, ← tenTo_add]
        congr 2
        omega
    _ ≤ b * tenTo (-e).toNat * tenTo (-(e - k)).toNat := Nat.mul_le_mul_right _ h
    _ = b * tenTo (-(e - k)).toNat * tenTo (-e).toNat := Nat.mul_right_comm ..

/-- **Seventeen digits suffice.** -/
theorem isSome_gridPoint?_seventeen (tie : Tie) (hz : x.isZero = false) :
    (gridPoint? tie x (decimalExponent x.magnitude (twoTo 1074) - (16 : Nat))).isSome = true := by
  have hmag : 0 < x.magnitude := Nat.mul_pos (significand_pos hz) (twoTo_pos _)
  have hfine := fine_of_le 16 (tenTo_decimalExponent_le hmag (twoTo_pos 1074))
  generalize decimalExponent x.magnitude (twoTo 1074) - (16 : Nat) = scale at *
  have hden : 0 < twoTo 1074 * tenTo scale.toNat := Nat.mul_pos (twoTo_pos _) (tenTo_pos _)
  have hdiv := Nat.div_add_mod' (x.magnitude * tenTo (-scale).toNat) (twoTo 1074 * tenTo scale.toNat)
  have hmod := Nat.mod_lt (x.magnitude * tenTo (-scale).toNat) hden
  by_cases hhalf : 2 * (x.magnitude * tenTo (-scale).toNat % (twoTo 1074 * tenTo scale.toNat)) ≤
      twoTo 1074 * tenTo scale.toNat
  · exact isSome_gridPoint? (holds_of_near hfine (by omega) (by omega)) (.inl rfl)
  · refine isSome_gridPoint? (holds_of_near hfine ?_ ?_) (.inr rfl) <;> rw [Nat.add_mul (_ / _) 1] <;> omega

/-- **A search that meets a grid with a point ends in the interval.** -/
theorem holds_shortestFrom {tie : Tie} {e : Int} : ∀ {fuel tried : Nat},
    (∃ j < fuel, (gridPoint? tie x (e - (tried + j : Nat))).isSome = true) →
      x.Holds (shortestFrom tie x e fuel tried).digits (shortestFrom tie x e fuel tried).scale
  | 0, _, ⟨_, hj, _⟩ => absurd hj (Nat.not_lt_zero _)
  | fuel + 1, tried, ⟨j, hj, hsome⟩ => by
    rw [shortestFrom]
    cases hg : gridPoint? tie x (e - tried) with
    | some d => exact gridPoint?_holds hg
    | none =>
      cases j with
      | zero => rw [Nat.add_zero, hg] at hsome; cases hsome
      | succ j =>
        refine holds_shortestFrom ⟨j, Nat.lt_of_succ_lt_succ hj, ?_⟩
        rw [Nat.add_assoc, Nat.add_comm 1 j]
        exact hsome

theorem Holds.trim {d : Digits} (h : x.Holds d.digits d.scale) : x.Holds d.trim.digits d.trim.scale := by
  have hwithin : ∀ fuel (d : Digits), x.Holds d.digits d.scale →
      x.Holds (d.trimWithin fuel).digits (d.trimWithin fuel).scale := by
    intro fuel
    induction fuel with
    | zero => intro d h; exact h
    | succ fuel ih =>
      intro d h
      rw [Digits.trimWithin]
      split
      · rename_i hd
        refine ih _ (Holds.mul_ten.1 ?_)
        rw [Nat.div_mul_cancel (Nat.dvd_of_mod_eq_zero hd.2)]
        exact h
      · exact h
  exact hwithin _ d h

/-- **The shortest digits of a double are in its interval.** -/
theorem holds_shortest (tie : Tie) (hz : x.isZero = false) :
    x.Holds (x.shortest tie).digits (x.shortest tie).scale := by
  rw [shortest, if_neg (by simp [hz])]
  refine Holds.trim (holds_shortestFrom ⟨16, by decide, ?_⟩)
  exact isSome_gridPoint?_seventeen tie hz

end

end Binary64
end Interchange
