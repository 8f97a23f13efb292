import Interchange.Proofs.Readback
import Interchange.Yaml.Node.Expand
import Mathlib.Data.List.TakeDrop
import Mathlib.Data.List.TakeWhile
/-!
# Spelling — scalars plain and quoted

A plain text is resolved by the rules of YAML, a quoted one by the spelling of a value of its own.  The two agree on
booleans, on decimal integers however long, on decimal doubles and on every text that is none of these.  What they differ in
is known: spellings of null, integers marked with a radix, and the words for infinities and NaN
(`Atom.scalar_ofPlain_eq_ofText_iff`).
-/
namespace Interchange

/-! ## Decimal integers -/

/-- Letters count from ten, so they are no decimal digits. -/
theorem isDigit_of_digitValue? {c : Char} {d : Nat} (h : digitValue? 10 c = some d) : isDigit c = true := by
  have hle : ∀ a b : Char, a ≤ b ↔ a.toNat ≤ b.toNat := fun _ _ => Iff.rfl
  have ha : 'a'.toNat = 97 := rfl
  have hA : 'A'.toNat = 65 := rfl
  rw [isDigit, Bool.and_eq_true, decide_eq_true_eq, decide_eq_true_eq]
  by_contra hdigit
  rw [digitValue?, if_neg hdigit] at h
  refine absurd h (ne_of_eq_of_ne (if_neg ?_) nofun)
  simp only [hle]
  split
  · omega
  · split <;> omega

theorem isDigit_of_digitsValueFrom? : ∀ {cs : List Char} {acc n : Nat}, digitsValueFrom? 10 acc cs = some n →
    ∀ c ∈ cs, isDigit c = true
  | [], _, _, _ => nofun
  | c :: cs, acc, n, h => by
    rw [digitsValueFrom?] at h
    obtain ⟨d, hd, h⟩ := Option.bind_eq_some_iff.1 h
    exact List.forall_mem_cons.2 ⟨isDigit_of_digitValue? hd, isDigit_of_digitsValueFrom? h⟩

theorem isDigit_of_digitsValue? {cs : List Char} {n : Nat} (h : digitsValue? 10 cs = some n) :
    ∀ c ∈ cs, isDigit c = true := by
  cases cs with
  | nil => cases h
  | cons c cs => exact isDigit_of_digitsValueFrom? h

theorem splitDigits_of_forall {cs : List Char} (h : ∀ c ∈ cs, isDigit c = true) : splitDigits cs = (cs, []) := by
  rw [splitDigits, List.span_eq_takeWhile_dropWhile, List.takeWhile_eq_self_iff.2 h, List.dropWhile_eq_nil_iff.2 h]

theorem lowerAscii_of_isDigit {c : Char} (hc : isDigit c = true) : lowerAscii c = c := by
  have hle : ∀ a b : Char, a ≤ b ↔ a.toNat ≤ b.toNat := fun _ _ => Iff.rfl
  have h9 : '9'.toNat = 57 := rfl
  have hA : 'A'.toNat = 65 := rfl
  rw [isDigit, Bool.and_eq_true, decide_eq_true_eq, decide_eq_true_eq, hle, hle] at hc
  rw [lowerAscii, if_neg]
  rw [hle, hle]
  omega

/-- A text with a digit in front is no word for an infinity or NaN. -/
theorem readFloat?_of_isDigit {cs ds : List Char} {c : Char} (hcs : (splitSign cs).2 = c :: ds) (hc : isDigit c = true) :
    readFloat? cs = readUnsignedDecimal? (splitSign cs).1 (c :: ds) := by
  have hword : ∀ w : String, w.toList.head?.any isDigit = false → String.ofList ((c :: ds).map lowerAscii) ≠ w := by
    rintro _ hw rfl
    rw [String.toList_ofList, List.map_cons, lowerAscii_of_isDigit hc, List.head?_cons, Option.any_some, hc] at hw
    cases hw
  unfold readFloat?
  dsimp only
  rw [hcs, if_neg (not_or.2 ⟨hword _ (by decide), hword _ (by decide)⟩), if_neg (hword _ (by decide))]

/-- **Decimal digits are read as a double** by their number. -/
theorem readFloat?_of_digitsValue? {cs : List Char} {n : Nat} (h : digitsValue? 10 (splitSign cs).2 = some n) :
    readFloat? cs = some (.ofDecimal (splitSign cs).1 n 0) := by
  obtain ⟨c, ds, hcs⟩ : ∃ c ds, (splitSign cs).2 = c :: ds :=
    List.exists_cons_of_ne_nil fun hnil => by rw [hnil] at h; cases h
  have hdigits := isDigit_of_digitsValue? h
  rw [hcs] at h hdigits
  rw [readFloat?_of_isDigit hcs (hdigits c List.mem_cons_self), readUnsignedDecimal?, splitDigits_of_forall hdigits]
  dsimp only
  rw [List.append_nil, h]
  rfl

namespace Binary64

/-- **A natural that is written out is the double nearest to it.** -/
theorem ofDecimal_natural (negative : Bool) {n : Nat} (h0 : n ≠ 0) (hn : n ≤ twoTo 128) :
    ofDecimal negative n 0 = ofRatio negative n 1 := by
  have hlen : decimalLength n ≤ 310 := by
    by_contra hlong
    have hle := tenTo_decimalLength_le h0
    have h40 : tenTo 40 ≤ tenTo (decimalLength n) := tenTo_le (by omega)
    have h128 : 10 * twoTo 128 < tenTo 40 := by decide
    omega
  rw [ofDecimal]
  dsimp only
  rw [if_neg (by omega), if_neg (by omega), scaledQuotient_eq]
  have hone : tenTo 0 = 1 := rfl
  simp only [Int.neg_zero, Int.toNat_zero, hone, Nat.mul_one]

end Binary64

/-- The integer with a sign and a magnitude. -/
def withSign (negative : Bool) (n : Nat) : Int := if negative then -(n : Int) else n

theorem natAbs_withSign (negative : Bool) (n : Nat) : (withSign negative n).natAbs = n := by
  rw [withSign]
  split <;> omega

theorem readInt?_eq {radix : Nat} {cs : List Char} :
    readInt? radix cs = (digitsValue? radix (splitSign cs).2).map (withSign (splitSign cs).1) := by
  unfold readInt?
  rcases splitSign cs with ⟨negative, digits⟩
  dsimp only
  cases digitsValue? radix digits <;> rfl

/-- **A decimal integer of at most 128 bits is read as the double nearest to it.**  Zero is not: with a sign in front it is
the negative one. -/
theorem readFloat?_of_readInt? {cs : List Char} {i : Int} (h : readInt? 10 cs = some i) (h0 : i ≠ 0)
    (hi : i.natAbs ≤ twoTo 128) : readFloat? cs = some (.ofInt i) := by
  rw [readInt?_eq] at h
  obtain ⟨n, hn, rfl⟩ := Option.map_eq_some_iff.1 h
  have hn0 : n ≠ 0 := fun hn0 => h0 (by rw [← Int.natAbs_eq_zero, natAbs_withSign, hn0])
  rw [natAbs_withSign] at hi
  have hsign : decide (withSign (splitSign cs).1 n < 0) = (splitSign cs).1 := by
    rw [withSign]
    cases (splitSign cs).1
    · exact decide_eq_false (by rw [if_neg Bool.false_ne_true]; omega)
    · exact decide_eq_true (by rw [if_pos rfl]; omega)
  rw [readFloat?_of_digitsValue? hn, Binary64.ofDecimal_natural _ hn0 hi, Binary64.ofInt, natAbs_withSign, hsign]

namespace Yaml

/-! ## Marked integers -/

/-- A mark of the radix sixteen, eight or two, perhaps after a sign. -/
def isMarked (cs : List Char) : Bool :=
  match (splitSign cs).2 with
  | '0' :: c :: _ => ['x', 'o', 'b'].contains c
  | _ => false

variable {cs : List Char}

theorem magnitude?_of_not_isMarked (h : isMarked cs = false) :
    magnitude? (splitSign cs).2 = digitsValue? 10 (splitSign cs).2 := by
  unfold isMarked at h
  generalize (splitSign cs).2 = ds at h ⊢
  unfold magnitude?
  split <;> first | rfl | cases h

theorem exists_of_isMarked (h : isMarked cs = true) :
    ∃ c ds, (splitSign cs).2 = '0' :: c :: ds ∧ (c = 'x' ∨ c = 'o' ∨ c = 'b') := by
  unfold isMarked at h
  split at h
  · rename_i c ds hcs
    exact ⟨c, ds, hcs, by simpa using h⟩
  · cases h

/-- **A marked text is no decimal integer.** -/
theorem readInt?_of_isMarked (h : isMarked cs = true) : readInt? 10 cs = none := by
  obtain ⟨c, ds, hcs, rfl | rfl | rfl⟩ := exists_of_isMarked h <;> rw [readInt?_eq, hcs] <;> rfl

/-- **A marked text is no decimal number**: an exponent would have to follow the zero. -/
theorem readFloat?_of_isMarked (h : isMarked cs = true) : readFloat? cs = none := by
  obtain ⟨c, ds, hcs, rfl | rfl | rfl⟩ := exists_of_isMarked h <;> rw [readFloat?_of_isDigit hcs (by decide)] <;> rfl

/-- **A plain integer is read like any other**, without redundant zeros and in a range of 128 bits. -/
theorem plainInteger?_eq_some {i : Int} : plainInteger? cs = some i ↔
    hasRedundantZero cs = false ∧ (magnitude? (splitSign cs).2).map (withSign (splitSign cs).1) = some i ∧
      -(twoTo 127 : Int) ≤ i ∧ i < twoTo 128 := by
  have h127 : twoTo 127 = 170141183460469231731687303715884105728 := rfl
  have h128 : twoTo 128 = 340282366920938463463374607431768211456 := rfl
  unfold plainInteger?
  rcases splitSign cs with ⟨negative, digits⟩
  dsimp only
  cases hasRedundantZero cs
  · rw [if_neg Bool.false_ne_true]
    cases magnitude? digits with
    | none => simp
    | some n =>
      rw [h127, h128]
      cases negative <;> simp only [withSign, Bool.false_eq_true, if_false, if_true, Option.map_some, Option.some.injEq,
        true_and, Option.ite_none_right_eq_some] <;> omega
  · rw [if_pos rfl]
    exact iff_of_false nofun (fun h => Bool.noConfusion h.1)

theorem int64_bounds {i : Int} {j : Int64} (h : int64? i = some j) : -(twoTo 127 : Int) ≤ i ∧ i < twoTo 128 := by
  have h127 : twoTo 127 = 170141183460469231731687303715884105728 := rfl
  have h128 : twoTo 128 = 340282366920938463463374607431768211456 := rfl
  have hmin : Int64.minValue.toInt = -9223372036854775808 := rfl
  have hmax : Int64.maxValue.toInt = 9223372036854775807 := rfl
  unfold int64? at h
  split at h
  · omega
  · cases h

/-- **An integer of 64 bits is a plain integer**, without redundant zeros. -/
theorem plainInteger?_of_readInt64? {j : Int64} (h : readInt64? cs = some j) (hzero : hasRedundantZero cs = false) :
    plainInteger? cs ≠ none := by
  obtain ⟨i, hi, hj⟩ := Option.bind_eq_some_iff.1 h
  have hmark : isMarked cs = false := Bool.eq_false_iff.2 fun hmark => by rw [readInt?_of_isMarked hmark] at hi; cases hi
  have hplain : plainInteger? cs = some i :=
    plainInteger?_eq_some.2 ⟨hzero, by rw [magnitude?_of_not_isMarked hmark, ← readInt?_eq, hi], int64_bounds hj⟩
  rw [hplain]
  nofun

/-- **An unmarked plain integer has the same value as its text.** -/
theorem Scalar.ofText_of_plainInteger? {i : Int} (h : plainInteger? cs = some i) (hmark : isMarked cs = false)
    (hbool : boolWord? cs = none) : Scalar.ofText cs = .ofInt i := by
  obtain ⟨-, hread, hlow, hhigh⟩ := plainInteger?_eq_some.1 h
  rw [magnitude?_of_not_isMarked hmark, ← readInt?_eq] at hread
  rw [Scalar.ofText, hbool, readInt64?, hread, Option.bind_some, Scalar.ofInt]
  cases hi : int64? i with
  | some j => rfl
  | none =>
    have h0 : i ≠ 0 := by rintro rfl; cases hi
    rw [readFloat?_of_readInt? hread h0 ?_]
    have h127 : twoTo 127 ≤ twoTo 128 := twoTo_le (by decide)
    omega

/-! ## Words -/

/-- The words for infinities and NaN. -/
def floatWords : List (List Char) :=
  [".inf", ".Inf", ".INF", "+.inf", "+.Inf", "+.INF", "-.inf", "-.Inf", "-.INF", ".nan", ".NaN", ".NAN"].map String.toList

def boolWords : List (List Char) := ["true", "True", "TRUE", "false", "False", "FALSE"].map String.toList

theorem mem_of_any {ws : List String} (h : (ws.any fun w => w.toList == cs) = true) : cs ∈ ws.map String.toList := by
  obtain ⟨w, hw, heq⟩ := List.any_eq_true.1 h
  exact List.mem_map.2 ⟨w, hw, eq_of_beq heq⟩

theorem mem_boolWords {b : Bool} (h : boolWord? cs = some b) : cs ∈ boolWords := by
  unfold boolWord? at h
  split at h
  · rename_i htrue
    exact List.mem_append_left _ (mem_of_any htrue)
  · split at h
    · rename_i hfalse
      exact List.mem_append_right (["true", "True", "TRUE"].map String.toList) (mem_of_any hfalse)
    · cases h

theorem eq_of_splitSign (cs : List Char) :
    cs = (splitSign cs).2 ∨ cs = '+' :: (splitSign cs).2 ∨ cs = '-' :: (splitSign cs).2 := by
  unfold splitSign
  split
  · exact .inr (.inr rfl)
  · exact .inr (.inl rfl)
  · exact .inl rfl

theorem mem_floatWords {x : Binary64} (h : floatWord? cs = some x) : cs ∈ floatWords := by
  unfold floatWord? at h
  dsimp only at h
  split at h
  · rename_i hinf
    have hall : ∀ w ∈ [".inf", ".Inf", ".INF"].map String.toList,
        w ∈ floatWords ∧ '+' :: w ∈ floatWords ∧ '-' :: w ∈ floatWords := by decide
    obtain ⟨hnone, hplus, hminus⟩ := hall _ (mem_of_any hinf)
    rcases eq_of_splitSign cs with hcs | hcs | hcs <;> rw [hcs]
    · exact hnone
    · exact hplus
    · exact hminus
  · split at h
    · rename_i hnan
      exact List.mem_of_mem_drop (i := 9) (mem_of_any hnan)
    · cases h

theorem isMarked_of_mem_boolWords : ∀ cs ∈ boolWords, isMarked cs = false := by decide

/-- **A word for an infinity or NaN is nothing else**, and a text of its own when it is quoted. -/
theorem apart_of_mem_floatWords : ∀ cs ∈ floatWords, hasRedundantZero cs = false ∧ plainInteger? cs = none ∧
    boolWord? cs = none ∧ (Atom.ofPlain cs).scalar ≠ .ofText cs := by
  decide

theorem floatWord?_eq_none (h : ¬ (hasRedundantZero cs = false ∧ plainInteger? cs = none ∧ boolWord? cs = none)) :
    floatWord? cs = none := by
  cases hword : floatWord? cs with
  | none => rfl
  | some x =>
    obtain ⟨hzero, hint, hbool, -⟩ := apart_of_mem_floatWords cs (mem_floatWords hword)
    exact absurd ⟨hzero, hint, hbool⟩ h

/-! ## Plain texts -/

section

variable (hnull : spellsNull cs = false)

include hnull

theorem Atom.ofPlain_of_boolWord? {b : Bool} (hbool : boolWord? cs = some b) : Atom.ofPlain cs = .bool b := by
  rw [spellsNull] at hnull
  rw [Atom.ofPlain, plain?, hnull, if_neg Bool.false_ne_true, hbool]
  rfl

theorem Atom.ofPlain_of_plainInteger? {i : Int} (hbool : boolWord? cs = none) (hint : plainInteger? cs = some i) :
    Atom.ofPlain cs = .integer i := by
  rw [spellsNull] at hnull
  rw [Atom.ofPlain, plain?, hnull, if_neg Bool.false_ne_true, hbool, hint]
  rfl

/-- A plain text that is neither is a double or stands for itself. -/
theorem Atom.ofPlain_of_none (hbool : boolWord? cs = none) (hint : plainInteger? cs = none) :
    Atom.ofPlain cs = ((if hasRedundantZero cs then none else (plainFloat? cs).map .float).getD (.text cs)) := by
  rw [spellsNull] at hnull
  rw [Atom.ofPlain, plain?, hnull, if_neg Bool.false_ne_true, hbool, hint]

/-- **A plain text that is no boolean or integer and no word has the value of its text.** -/
theorem Atom.scalar_ofPlain_of_none (hbool : boolWord? cs = none) (hint : plainInteger? cs = none)
    (hword : floatWord? cs = none) :
    (Atom.ofPlain cs).scalar = .ofText cs := by
  rw [Atom.ofPlain_of_none hnull hbool hint]
  cases hzero : hasRedundantZero cs with
  | true => rfl
  | false =>
    have hread : readInt64? cs = none := by
      cases hread : readInt64? cs with
      | none => rfl
      | some j => exact absurd hint (plainInteger?_of_readInt64? hread hzero)
    rw [if_neg Bool.false_ne_true, plainFloat?, hword, Option.none_or]
    cases hfloat : (readFloat? cs).filter Binary64.isFinite with
    | none => rfl
    | some x =>
      obtain ⟨hx, -⟩ := Option.filter_eq_some_iff.1 hfloat
      rw [Scalar.ofText, hbool, hread, hx]
      rfl

end

/-! ## Plain and quoted -/

/-- **Whether a text means one thing plain and another quoted**: it spells null, is an integer with a mark, or is a word for
an infinity or NaN. -/
def dependsOnQuotes (cs : List Char) : Bool :=
  spellsNull cs || (isMarked cs && (plainInteger? cs).isSome) || (floatWord? cs).isSome

theorem Scalar.ofText_ne_null (cs : List Char) : Scalar.ofText cs ≠ .null := by
  unfold Scalar.ofText
  split <;> nofun

theorem Scalar.ofText_of_isMarked (hmark : isMarked cs = true) (hbool : boolWord? cs = none) :
    Scalar.ofText cs = .string (String.ofList cs) := by
  rw [Scalar.ofText, hbool, readInt64?, readInt?_of_isMarked hmark, readFloat?_of_isMarked hmark]
  rfl

theorem Scalar.ofInt_ne_string (i : Int) (s : String) : Scalar.ofInt i ≠ .string s := by
  unfold Scalar.ofInt
  split <;> nofun

/-- **A text has the same value plain and quoted** unless it spells null, is a marked integer, or is a word for an infinity or
NaN. -/
theorem Atom.scalar_ofPlain_eq_ofText_iff (cs : List Char) :
    (Atom.ofPlain cs).scalar = .ofText cs ↔ dependsOnQuotes cs = false := by
  rw [dependsOnQuotes]
  cases hnull : spellsNull cs with
  | true =>
    have hplain : Atom.ofPlain cs = .null := by
      rw [spellsNull] at hnull
      rw [Atom.ofPlain, plain?, if_pos hnull]
      rfl
    rw [hplain]
    exact iff_of_false (Scalar.ofText_ne_null cs).symm fun h => by cases h
  | false =>
    cases hbool : boolWord? cs with
    | some b =>
      rw [Atom.ofPlain_of_boolWord? hnull hbool, isMarked_of_mem_boolWords cs (mem_boolWords hbool),
        floatWord?_eq_none fun h => by rw [hbool] at h; cases h.2.2]
      refine iff_of_true ?_ rfl
      rw [Scalar.ofText, hbool]
      rfl
    | none =>
      cases hint : plainInteger? cs with
      | some i =>
        rw [Atom.ofPlain_of_plainInteger? hnull hbool hint, floatWord?_eq_none fun h => by rw [hint] at h; cases h.2.1]
        cases hmark : isMarked cs with
        | true =>
          rw [Scalar.ofText_of_isMarked hmark hbool]
          exact iff_of_false (Scalar.ofInt_ne_string i _) fun h => by cases h
        | false => exact iff_of_true (Scalar.ofText_of_plainInteger? hint hmark hbool).symm rfl
      | none =>
        rw [Option.isSome_none, Bool.and_false]
        cases hword : floatWord? cs with
        | some x => exact iff_of_false (apart_of_mem_floatWords cs (mem_floatWords hword)).2.2.2 fun h => by cases h
        | none => exact iff_of_true (Atom.scalar_ofPlain_of_none hnull hbool hint hword) rfl

theorem Scalar.value_injective : Function.Injective Scalar.value := fun a b h => by
  cases a <;> cases b <;> cases h <;> rfl

/-- **An untagged scalar decodes to the same value plain and quoted**, its kind, the variant of a number, and every bit of a
double, exactly if its text does not depend on quotes. -/
theorem value_plain_eq_value_quoted_iff (cs : List Char) :
    (Node.taggedAtom? none cs true).map (fun a => a.scalar.value) =
      (Node.taggedAtom? none cs false).map (fun a => a.scalar.value) ↔ dependsOnQuotes cs = false := by
  have hplain : Node.taggedAtom? none cs true = some (.ofPlain cs) := rfl
  have hquoted : Node.taggedAtom? none cs false = some (.text cs) := rfl
  rw [hplain, hquoted, Option.map_some, Option.map_some, Option.some_inj, Scalar.value_injective.eq_iff, Atom.scalar]
  exact Atom.scalar_ofPlain_eq_ofText_iff cs

end Yaml
end Interchange
