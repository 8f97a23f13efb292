import Interchange.Proofs.Exact
import Interchange.Proofs.Same
/-!
# Transitivity — where equality carries over

Two integers are compared exactly, but each meets a double as the double nearest to it, so one double can be equal to two
integers that differ.  That is all that keeps equality from being transitive: values equal to the same value are equal
exactly when nowhere in them a double stands between two such integers (`Heap.equal_trans_iff`).  Integers up to `2 ^ 53`
are doubles, so no double stands between two of them.
-/
namespace Interchange

/-! ## Doubles -/

namespace Binary64

variable {x y z : Binary64}

theorem numericEq_trans (hxy : x.numericEq y = true) (hyz : y.numericEq z = true) : x.numericEq z = true := by
  obtain ⟨hx, -, hxy⟩ := numericEq_iff.1 hxy
  obtain ⟨-, hz, hyz⟩ := numericEq_iff.1 hyz
  refine numericEq_iff.2 ⟨hx, hz, ?_⟩
  rcases hxy with rfl | ⟨hx0, hy0⟩
  · exact hyz
  · rcases hyz with rfl | ⟨-, hz0⟩
    · exact .inr ⟨hx0, hy0⟩
    · exact .inr ⟨hx0, hz0⟩

/-! ## Integers that are doubles -/

theorem negative_ofWord (negative : Bool) {w : Nat} (hw : w < twoTo 63) : (ofWord negative w).negative = negative := by
  have h63 : twoTo 63 = 9223372036854775808 := rfl
  rw [Binary64.negative, ofWord, word]
  rw [h63] at hw ⊢
  cases negative with
  | true => rw [if_pos rfl, UInt64.toNat_ofNat_of_lt' (by show _ < 2 ^ 64; omega), beq_iff_eq]; omega
  | false =>
    rw [if_neg Bool.false_ne_true, UInt64.toNat_ofNat_of_lt' (by show _ < 2 ^ 64; omega), beq_eq_false_iff_ne]
    omega

/-- **The magnitude of a pattern** that is a unit and a significand of 53 bits. -/
theorem magnitude_ofWord (negative : Bool) {u k : Nat} (hlow : twoTo 52 ≤ k) (hhigh : k < twoTo 53)
    (hw : u * twoTo 52 + k < twoTo 63) : (ofWord negative (u * twoTo 52 + k)).magnitude = k * twoTo u := by
  have hpos := twoTo_pos 52
  have h53 : twoTo 53 = 2 * twoTo 52 := twoTo_succ 52
  have hunsigned := unsignedWord_ofWord negative hw
  generalize ofWord negative (u * twoTo 52 + k) = x at hunsigned
  have hparts : u * twoTo 52 + k = (k - twoTo 52) + twoTo 52 * (u + 1) := by
    rw [Nat.mul_succ, Nat.mul_comm]; omega
  have hexponent : x.exponentField = u + 1 := by
    rw [exponentField, hunsigned, hparts, Nat.add_mul_div_left _ _ hpos, Nat.div_eq_of_lt (by omega), Nat.zero_add]
  have hfraction : x.fraction = k - twoTo 52 := by
    rw [fraction, hunsigned, hparts, Nat.add_mul_mod_self_left, Nat.mod_eq_of_lt (by omega)]
  have hunit : x.unit = u := by rw [unit, hexponent, Nat.add_sub_cancel]
  rw [magnitude, significand, if_neg (by omega), hfraction, hunit, Nat.add_sub_cancel' hlow]

theorem isZero_ofInt_zero : (ofInt 0).isZero = true := by
  have hword : nearestWord 0 1 = 0 * twoTo 52 + 0 :=
    nearestWord_eq Nat.one_pos (.inl rfl) (by rw [Nat.zero_mul]; decide) (by omega) (by omega) nofun (by decide)
  rw [ofInt, ofRatio, Int.natAbs_zero, hword]
  decide

/-- **A natural with 53 bits that count is a double.** -/
theorem magnitude_ofRatio (negative : Bool) {m j : Nat} (h0 : m ≠ 0) (hm : m < twoTo 53) (hj : j ≤ 900) :
    (ofRatio negative (m * twoTo j) 1).magnitude = m * twoTo j * twoTo 1074 := by
  have hlog : m.log2 < 53 := (Nat.log2_lt h0).2 hm
  have hlow : twoTo m.log2 ≤ m := Nat.log2_self_le h0
  have hhigh : m < twoTo (m.log2 + 1) := Nat.lt_log2_self
  generalize m.log2 = l at hlog hlow hhigh
  -- the significand is `m` moved up to 53 bits, and the unit moves down by as much
  have hscaled : m * twoTo (52 - l) * twoTo (j + l + 1022) = m * twoTo j * twoTo 1074 := by
    rw [Nat.mul_assoc, Nat.mul_assoc, ← twoTo_add, ← twoTo_add, show 52 - l + (j + l + 1022) = j + 1074 by omega]
  have hklow : twoTo 52 ≤ m * twoTo (52 - l) := by
    calc twoTo 52 = twoTo l * twoTo (52 - l) := by rw [← twoTo_add, Nat.add_sub_cancel' (by omega)]
      _ ≤ m * twoTo (52 - l) := Nat.mul_le_mul_right _ hlow
  have hkhigh : m * twoTo (52 - l) < twoTo 53 := by
    calc m * twoTo (52 - l) < twoTo (l + 1) * twoTo (52 - l) := Nat.mul_lt_mul_of_pos_right hhigh (twoTo_pos _)
      _ = twoTo 53 := by rw [← twoTo_add, show l + 1 + (52 - l) = 53 by omega]
  generalize m * twoTo (52 - l) = k at hscaled hklow hkhigh
  have hword : (j + l + 1022) * twoTo 52 + k < infinityWord := by
    have h53 : twoTo 53 = 2 * twoTo 52 := twoTo_succ 52
    have hle : (j + l + 1022) * twoTo 52 ≤ 1974 * twoTo 52 := Nat.mul_le_mul_right _ (by omega)
    rw [infinityWord]
    omega
  have hpattern : nearestWord (m * twoTo j) 1 = (j + l + 1022) * twoTo 52 + k := by
    refine nearestWord_eq Nat.one_pos (.inr ?_) ?_ ?_ ?_ ?_ hword.le
    · rw [← hscaled, Nat.mul_one, show j + l + 1022 + 52 = 52 + (j + l + 1022) by omega, twoTo_add 52]
      exact Nat.mul_le_mul_right _ hklow
    · rw [← hscaled, Nat.mul_one, show j + l + 1022 + 53 = 53 + (j + l + 1022) by omega, twoTo_add 53]
      exact Nat.mul_lt_mul_of_pos_right hkhigh (twoTo_pos _)
    all_goals
      have hpos := twoTo_pos (j + l + 1022)
      rw [Nat.one_mul, hscaled]
      omega
  have h63 : infinityWord ≤ twoTo 63 := by decide
  rw [ofRatio, hpattern, magnitude_ofWord negative hklow hkhigh (hword.trans_le h63), hscaled]

/-- **An integer with 53 bits that count is the double nearest to it.** -/
theorem toInt64?_ofInt_of_eq {i : Int64} {m j : Nat} (hi : i.toInt.natAbs = m * twoTo j) (h0 : m ≠ 0) (hm : m < twoTo 53)
    (hj : j ≤ 900) : (ofInt i.toInt).toInt64? = some i := by
  have h64 : i.toInt.natAbs < twoTo 64 := by
    have hlow := Int64.le_toInt i
    have hhigh := Int64.toInt_lt i
    have h64 : twoTo 64 = 18446744073709551616 := rfl
    omega
  have hnegative : (ofInt i.toInt).negative = decide (i.toInt < 0) :=
    negative_ofWord _ ((nearestWord_lt h64).trans_le (by decide))
  have hmagnitude : (ofInt i.toInt).magnitude = i.toInt.natAbs * twoTo 1074 := by
    rw [ofInt, hi, magnitude_ofRatio _ h0 hm hj]
  refine toInt64?_eq_some_iff_signedMagnitude.2 ⟨isFinite_ofInt h64, ?_⟩
  rw [signedMagnitude, hnegative, hmagnitude, Int.natCast_mul, ← Int.neg_mul]
  simp only [decide_eq_true_eq]
  split <;> congr 1 <;> omega

/-- **An integer up to `2 ^ 53` is the double nearest to it.** -/
theorem toInt64?_ofInt {i : Int64} (hi : i.toInt.natAbs ≤ 2 ^ 53) : (ofInt i.toInt).toInt64? = some i := by
  by_cases h0 : i.toInt = 0
  · rw [h0, toInt64?_of_isZero isZero_ofInt_zero, ← Int64.ofInt_toInt i, h0]
    rfl
  · by_cases hmax : i.toInt.natAbs = 2 ^ 53
    · exact toInt64?_ofInt_of_eq (hmax.trans (Nat.one_mul _).symm) Nat.one_ne_zero (by decide) (by decide)
    · exact toInt64?_ofInt_of_eq (Nat.mul_one _).symm (Int.natAbs_ne_zero.2 h0) (Nat.lt_of_le_of_ne hi hmax) (Nat.zero_le _)

end Binary64

/-! ## Numbers -/

namespace Number

variable {x y z : Number}

/-- **A double between two integers that differ.** -/
inductive Bridged : Number → Number → Number → Prop where
  | mk {i j : Int64} {x : Binary64} (hij : i ≠ j) : Bridged (.integer i) (.float x) (.integer j)

/-- **Numbers that are equal are equal as doubles.** -/
theorem numericEq_toFloat (h : x.numericEq y = true) : x.toFloat.numericEq y.toFloat = true := by
  cases x with
  | integer i =>
    cases y with
    | integer j =>
      rw [eq_of_beq h]
      exact Binary64.numericEq_iff.2 ⟨isNaN_toFloat _ nofun, isNaN_toFloat _ nofun, .inl rfl⟩
    | float y => exact h
  | float x => exact h

/-- **Numbers equal to the same number are equal**, unless it is a double between two integers that differ. -/
theorem numericEq_iff_not_bridged (hxy : x.numericEq y = true) (hyz : y.numericEq z = true) :
    x.numericEq z = true ↔ ¬ Bridged x y z := by
  have hdouble := Binary64.numericEq_trans (numericEq_toFloat hxy) (numericEq_toFloat hyz)
  cases x with
  | float x => exact iff_of_true hdouble nofun
  | integer i =>
    cases z with
    | float z => exact iff_of_true hdouble nofun
    | integer k =>
      cases y with
      | integer j =>
        cases eq_of_beq hxy
        exact iff_of_true hyz nofun
      | float y =>
        refine ⟨fun hik ⟨hne⟩ => hne (eq_of_beq hik), fun hb => ?_⟩
        exact beq_iff_eq.2 (not_not.1 fun hne => hb ⟨hne⟩)

/-- **No double is between integers up to `2 ^ 53` that differ.** -/
theorem not_bridged_of_le (hxy : x.numericEq y = true) (hyz : y.numericEq z = true)
    (hle : ∀ i, x = .integer i ∨ z = .integer i → i.toInt.natAbs ≤ 2 ^ 53) : ¬ Bridged x y z := by
  rintro ⟨hne⟩
  have hleft := Binary64.toInt64?_eq_of_numericEq hxy
  have hright := Binary64.toInt64?_eq_of_numericEq hyz
  rw [toFloat, Binary64.toInt64?_ofInt (hle _ (.inl rfl))] at hleft
  rw [toFloat, toFloat, Binary64.toInt64?_ofInt (hle _ (.inr rfl))] at hright
  exact hne (Option.some.inj (hleft.trans hright))

end Number

/-! ## Values -/

namespace Heap

variable {h : Heap} {u v w : Value}

/-- **Somewhere in three values a double is between two integers that differ**, at the same place. -/
inductive Bridged (h : Heap) : Value → Value → Value → Prop where
  | number {m n o : Number} (hb : Number.Bridged m n o) : Bridged h (.number m) (.number n) (.number o)
  | table {a b c : TableId} {k : Key} {u v w : Value} (hu : (k, u) ∈ (h.get a).entries) (hv : (k, v) ∈ (h.get b).entries)
    (hw : (k, w) ∈ (h.get c).entries) (hb : Bridged h u v w) : Bridged h (.table a) (.table b) (.table c)

/-- As keys are distinct, values at the same place of one table are one. -/
theorem Bridged.ne (hb : h.Bridged u v w) : u ≠ v ∧ v ≠ w ∧ u ≠ w := by
  induction hb with
  | number hb =>
    obtain ⟨hij⟩ := hb
    refine ⟨nofun, nofun, fun heq => hij ?_⟩
    cases heq
    rfl
  | table hu hv hw _ ih =>
    obtain ⟨huv, hvw, huw⟩ := ih
    refine ⟨fun heq => huv ?_, fun heq => hvw ?_, fun heq => huw ?_⟩ <;> cases heq
    · exact Entries.eq_of_mem_of_mem (h.get _).nodup hu hv
    · exact Entries.eq_of_mem_of_mem (h.get _).nodup hv hw
    · exact Entries.eq_of_mem_of_mem (h.get _).nodup hu hw

theorem leafEq_iff_not_bridged (huv : leafEq u v = true) (hvw : leafEq v w = true) :
    leafEq u w = true ↔ ¬ h.Bridged u v w := by
  rcases eq_of_leafEq huv with rfl | ⟨m, n, rfl, rfl, hmn⟩
  · exact iff_of_true hvw fun hb => hb.ne.1 rfl
  · rcases eq_of_leafEq hvw with rfl | ⟨_, o, ⟨⟩, rfl, hno⟩
    · exact iff_of_true huv fun hb => hb.ne.2.1 rfl
    · refine (Number.numericEq_iff_not_bridged hmn hno).trans (not_congr ⟨.number, fun hb => ?_⟩)
      cases hb with
      | number hb => exact hb

theorem exists_eq_table_of_equalWithin {n : Nat} {b : TableId} (heq : h.equalWithin n u (.table b) = true) :
    ∃ a, u = .table a := by
  refine exists_eq_table fun hleaf => ?_
  rw [equalWithin_leaf n (.inl hleaf)] at heq
  rcases eq_of_leafEq heq with rfl | ⟨_, _, _, ⟨⟩, _⟩
  cases hleaf

/-- **Tables equal to the same table**, when it is so for their values.  Of each key in two of the tables there is a value
in all three. -/
theorem equalWithin_table_iff_not_bridged {n : Nat} {a b c : TableId} (hab : a ≠ b) (hbc : b ≠ c)
    (huv : h.equalWithin (n + 1) (.table a) (.table b) = true) (hvw : h.equalWithin (n + 1) (.table b) (.table c) = true)
    (ih : ∀ {u v w}, h.equalWithin n u v = true → h.equalWithin n v w = true →
      (h.equalWithin n u w = true ↔ ¬ h.Bridged u v w)) :
    h.equalWithin (n + 1) (.table a) (.table c) = true ↔ ¬ h.Bridged (.table a) (.table b) (.table c) := by
  obtain ⟨hkeys, hvalues⟩ := (equalWithin_succ.1 huv).resolve_left hab
  obtain ⟨hkeys', hvalues'⟩ := (equalWithin_succ.1 hvw).resolve_left hbc
  rw [equalWithin_succ]
  constructor
  · rintro (rfl | ⟨-, hall⟩) hb
    · exact hb.ne.2.2 rfl
    · cases hb with
      | table hu hv hw hb => exact (ih (hvalues _ _ _ hu hv) (hvalues' _ _ _ hv hw)).1 (hall _ _ _ hu hw) hb
  · refine fun hb => .inr ⟨hkeys.trans hkeys', fun k u w hu hw => ?_⟩
    obtain ⟨v, hv⟩ := Entries.exists_mem_of_mem_keys (hkeys.mem_iff.1 (Entries.mem_keys_of_mem hu))
    exact (ih (hvalues k u v hu hv) (hvalues' k v w hv hw)).2 fun hb' => hb (.table hu hv hw hb')

/-- **Values equal to the same value are equal**, unless somewhere a double is between two integers that differ. -/
theorem equalWithin_iff_not_bridged : ∀ {n : Nat} {u v w : Value}, h.equalWithin n u v = true → h.equalWithin n v w = true →
    (h.equalWithin n u w = true ↔ ¬ h.Bridged u v w)
  | n, u, v, w, huv, hvw => by
    by_cases hleaf : v.isTable = false
    · rw [equalWithin_leaf n (.inr hleaf)] at huv
      rw [equalWithin_leaf n (.inl hleaf)] at hvw
      have huleaf : u.isTable = false := by rcases eq_of_leafEq huv with rfl | ⟨_, _, rfl, -⟩ <;> [exact hleaf; rfl]
      rw [equalWithin_leaf n (.inl huleaf)]
      exact leafEq_iff_not_bridged huv hvw
    · obtain ⟨b, rfl⟩ := exists_eq_table hleaf
      obtain ⟨a, rfl⟩ := exists_eq_table_of_equalWithin huv
      obtain ⟨c, rfl⟩ := exists_eq_table_of_equalWithin (equalWithin_comm n _ _ ▸ hvw)
      by_cases hab : a = b
      · subst hab
        exact iff_of_true hvw fun hb => hb.ne.1 rfl
      by_cases hbc : b = c
      · subst hbc
        exact iff_of_true huv fun hb => hb.ne.2.1 rfl
      cases n with
      | zero => exact absurd (equalWithin_zero.1 huv) hab
      | succ n => exact equalWithin_table_iff_not_bridged hab hbc huv hvw equalWithin_iff_not_bridged

/-- **Where equality is transitive.**  Values equal to the same value are equal exactly when nowhere in them a double stands
between two integers that differ, each rounding to it.  Up to `2 ^ 53` there are no such integers. -/
theorem equal_trans_iff (huv : h.equal u v = true) (hvw : h.equal v w = true) :
    (h.equal u w = true ↔ ¬ h.Bridged u v w) ∧
    ∀ x y z, u = .number x → v = .number y → w = .number z →
      (x.numericEq z = true ↔ ¬ Number.Bridged x y z) ∧
      ((∀ i, x = .integer i ∨ z = .integer i → i.toInt.natAbs ≤ 2 ^ 53) → x.numericEq z = true) := by
  refine ⟨equalWithin_iff_not_bridged huv hvw, ?_⟩
  rintro x y z rfl rfl rfl
  rw [equal, equalWithin_leaf _ (.inl rfl)] at huv hvw
  have htrans := Number.numericEq_iff_not_bridged huv hvw
  exact ⟨htrans, fun hle => htrans.2 (Number.not_bridged_of_le huv hvw hle)⟩

/-- The integer after `2 ^ 53`, the double that both round to, and `2 ^ 53`, in three tables. -/
def straddled : Heap := ⟨#[.ofPairs [(.string "n", .integer 9007199254740993)],
  .ofPairs [(.string "n", .float (.ofInt 9007199254740992))], .ofPairs [(.string "n", .integer 9007199254740992)]]⟩

/-- The double in the second table is equal to both integers, and they are not equal; a small double is between one integer
and itself. -/
theorem equal_trans_iff_straddled :
    (straddled.equal (.table ⟨0⟩) (.table ⟨1⟩) = true ∧ straddled.equal (.table ⟨1⟩) (.table ⟨2⟩) = true ∧
      straddled.Bridged (.table ⟨0⟩) (.table ⟨1⟩) (.table ⟨2⟩) ∧ straddled.equal (.table ⟨0⟩) (.table ⟨2⟩) = false) ∧
    straddled.equal (.integer 3) (.float (.ofInt 3)) = true ∧ straddled.equal (.float (.ofInt 3)) (.integer 3) = true ∧
      Number.numericEq (.integer 3) (.integer 3) = true := by
  have hfirst : straddled.equal (.table ⟨0⟩) (.table ⟨1⟩) = true := by decide +kernel
  have hlast : straddled.equal (.table ⟨1⟩) (.table ⟨2⟩) = true := by decide +kernel
  have hbridged : straddled.Bridged (.table ⟨0⟩) (.table ⟨1⟩) (.table ⟨2⟩) :=
    .table (.head _) (.head _) (.head _) (.number ⟨by decide⟩)
  have hleft : straddled.equal (.integer 3) (.float (.ofInt 3)) = true := by decide +kernel
  have hright : straddled.equal (.float (.ofInt 3)) (.integer 3) = true := by decide +kernel
  have hthree : ∀ i, Number.integer 3 = .integer i ∨ Number.integer 3 = .integer i → i.toInt.natAbs ≤ 2 ^ 53 := by
    intro i hi
    rw [← Number.integer.inj (or_self_iff.1 hi)]
    decide
  refine ⟨⟨hfirst, hlast, hbridged, Bool.eq_false_iff.2 fun heq => ?_⟩, hleft, hright, ?_⟩
  · exact (equal_trans_iff hfirst hlast).1.1 heq hbridged
  · exact ((equal_trans_iff hleft hright).2 _ _ _ rfl rfl rfl).2 hthree

/-- **Equality is not transitive**, neither of numbers nor of tables without cycles. -/
theorem not_equal_trans :
    (¬ ∀ x y z : Number, x.numericEq y = true → y.numericEq z = true → x.numericEq z = true) ∧
    ¬ ∀ (h : Heap) (a b c : TableId), ¬ h.HasCycle a → ¬ h.HasCycle b → ¬ h.HasCycle c →
      h.equal (.table a) (.table b) = true → h.equal (.table b) (.table c) = true → h.equal (.table a) (.table c) = true := by
  constructor
  · intro htrans
    have heq := htrans (.integer 9007199254740993) (.float (.ofInt 9007199254740992)) (.integer 9007199254740992)
      (by decide +kernel) (by decide +kernel)
    cases heq
  · intro htrans
    have hac : ∀ a, (straddled.tree? (.table a)).isSome = true → ¬ straddled.HasCycle a := fun _ => tree?_isSome_iff.1
    have heq := htrans straddled ⟨0⟩ ⟨1⟩ ⟨2⟩ (hac _ (by decide)) (hac _ (by decide)) (hac _ (by decide))
      (by decide +kernel) (by decide +kernel)
    exact absurd heq (by decide)

end Heap
end Interchange
