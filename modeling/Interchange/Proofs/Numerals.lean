import Interchange.Number.Basic
import Interchange.Proofs.Significant
/-!
# Numerals — the text of a double as a datum

A numeral is a sign, digits before and behind a point, and an exponent; a text is that of one numeral at most
(`Numeral.text_injective`), so it denotes one number.  A double is written as its number rounded to fourteen significant digits,
ties to even, in plain notation when the exponent of the rounded number is from -4 to 13 and in scientific notation otherwise
(`Number.floatText_eq_numeral`).  No zero stands at the end of a fraction and no point at the end of a text.
-/
namespace Interchange

/-- **A decimal numeral**: a sign, the digits before the point and after it, and an exponent with its sign, if there is
one. -/
structure Numeral where
  negative : Bool
  whole : List Char
  fraction : List Char
  exponent : Option (Bool × List Char)
  whole_ne_nil : whole ≠ []
  allDigits : AllDigits (whole ++ fraction)
  allDigits_exponent : ∀ e ∈ exponent, e.2 ≠ [] ∧ AllDigits e.2

namespace Numeral

/-- A fraction behind its point; without digits there is no point. -/
def fractionText : List Char → List Char
  | [] => []
  | c :: cs => '.' :: c :: cs

def exponentText : Option (Bool × List Char) → List Char
  | none => []
  | some (negative, ds) => 'e' :: (if negative then '-' else '+') :: ds

/-- **The text of a numeral.** -/
def text (n : Numeral) : List Char :=
  (if n.negative then ['-'] else []) ++ (n.whole ++ fractionText n.fraction ++ exponentText n.exponent)

/-- The power of ten that the exponent stands for. -/
def power (n : Numeral) : Int :=
  match n.exponent with
  | none => 0
  | some (negative, ds) => if negative then -(Nat.ofDigitChars 10 ds 0 : Int) else Nat.ofDigitChars 10 ds 0

/-- **The number that a numeral denotes.** -/
def value (n : Numeral) : ℚ :=
  (if n.negative then -1 else 1) *
    (Nat.ofDigitChars 10 (n.whole ++ n.fraction) 0 * 10 ^ (n.power - n.fraction.length))

/-- **No needless zeros**: none at the end of the fraction, and none in front but a single one before the point. -/
structure IsTidy (n : Numeral) : Prop where
  whole : n.whole = ['0'] ∨ n.whole.head? ≠ some '0'
  fraction : n.fraction.getLast? ≠ some '0'

/-- **Plain notation.** -/
def IsPlain (n : Numeral) : Prop := n.exponent = none

/-- **Scientific notation with the exponent `e`**: one digit before the point, not zero, and an exponent of two digits, or of
as many more as it has. -/
structure IsScientific (n : Numeral) (e : Int) : Prop where
  whole : ∃ c, n.whole = [c] ∧ c ≠ '0'
  exponent : ∃ ds, n.exponent = some (decide (e < 0), ds) ∧ Nat.ofDigitChars 10 ds 0 = e.natAbs ∧ 2 ≤ ds.length ∧
    (2 < ds.length → ds.head? ≠ some '0')

/-! ## A text is one numeral -/

theorem head?_exponentText (e : Option (Bool × List Char)) : ∀ c ∈ (exponentText e).head?, c.isDigit = false := by
  rcases e with _ | ⟨negative, ds⟩
  · exact nofun
  · rintro _ ⟨⟩
    rfl

theorem head?_fractionText (ds : List Char) (e : Option (Bool × List Char)) :
    ∀ c ∈ (fractionText ds ++ exponentText e).head?, c.isDigit = false := by
  cases ds with
  | nil => exact head?_exponentText e
  | cons d ds =>
    rintro _ ⟨⟩
    rfl

theorem exponentText_injective : Function.Injective exponentText := by
  rintro (_ | ⟨_ | _, ds⟩) (_ | ⟨_ | _, es⟩) h <;> cases h <;> rfl

theorem fractionText_append_inj {ds es : List Char} {e f : Option (Bool × List Char)} (hd : AllDigits ds) (he : AllDigits es)
    (h : fractionText ds ++ exponentText e = fractionText es ++ exponentText f) : ds = es ∧ e = f := by
  match ds, es with
  | [], [] => exact ⟨rfl, exponentText_injective h⟩
  | [], _ :: _ => rcases e with _ | ⟨_, _⟩ <;> cases h
  | _ :: _, [] => rcases f with _ | ⟨_, _⟩ <;> cases h
  | _ :: _, _ :: _ =>
    obtain ⟨hdigits, hexponent⟩ :=
      hd.append_inj he (head?_exponentText e) (head?_exponentText f) (List.cons.inj h).2
    exact ⟨hdigits, exponentText_injective hexponent⟩

/-- **A text is the text of one numeral at most.** -/
theorem text_injective : Function.Injective text := by
  rintro ⟨negative, whole, fraction, exponent, hne, hall, _⟩ ⟨negative', whole', fraction', exponent', hne', hall', _⟩ h
  have hwhole : AllDigits whole := fun c hc => hall c (List.mem_append_left _ hc)
  have hwhole' : AllDigits whole' := fun c hc => hall' c (List.mem_append_left _ hc)
  obtain ⟨c, cs, rfl⟩ := List.exists_cons_of_ne_nil hne
  obtain ⟨c', cs', rfl⟩ := List.exists_cons_of_ne_nil hne'
  -- a minus is no digit, so both texts start with one or none does
  have hminus : '-'.isDigit ≠ true := by decide
  obtain rfl : negative = negative' := by
    cases negative <;> cases negative'
    case false.true =>
      obtain rfl : c = '-' := (List.cons.inj h).1
      exact absurd (hwhole _ List.mem_cons_self) hminus
    case true.false =>
      obtain rfl : '-' = c' := (List.cons.inj h).1
      exact absurd (hwhole' _ List.mem_cons_self) hminus
    all_goals rfl
  rw [text, text] at h
  have hbody := List.append_cancel_left h
  rw [List.append_assoc, List.append_assoc] at hbody
  obtain ⟨hfront, hback⟩ := hwhole.append_inj hwhole' (head?_fractionText _ _) (head?_fractionText _ _) hbody
  obtain ⟨rfl, rfl⟩ := fractionText_append_inj (fun c hc => hall c (List.mem_append_right _ hc))
    (fun c hc => hall' c (List.mem_append_right _ hc)) hback
  cases hfront
  rfl

theorem eq_text_iff {n : Numeral} {s : List Char} (h : s = n.text) (m : Numeral) : s = m.text ↔ m = n :=
  ⟨fun hm => text_injective (hm.symm.trans h), fun hm => hm ▸ h⟩

end Numeral

/-! ## Texts of digits as numerals -/

namespace Number

variable {d : Digits}

/-- **Positional digits are a plain numeral of their number.** -/
theorem exists_numeral_positionalText (negative : Bool) (hd : d.digits % 10 ≠ 0) : ∃ n : Numeral,
    n.text = (if negative then ['-'] else []) ++ floatLayout.positionalText d ∧ n.negative = negative ∧
      n.value = (if negative then -1 else 1) * d.value ∧ n.IsTidy ∧ n.IsPlain := by
  obtain ⟨whole, fraction, k, htext, hne, hall, hhead, hlast, hdigits, hscale⟩ :=
    floatLayout.exists_positionalText_eq (fun h => hd (by rw [h]))
  refine ⟨⟨negative, whole, fraction, none, hne, hall, nofun⟩, ?_, rfl, ?_, ⟨hhead, hlast hd⟩, rfl⟩
  · rw [Numeral.text, Numeral.exponentText, List.append_nil, htext]
    cases fraction <;> rfl
  · rw [Numeral.value, Numeral.power, Digits.value, hdigits, hscale, Nat.cast_mul, cast_tenTo, mul_assoc, ← zpow_natCast,
      ← zpow_add₀ (by norm_num), zero_sub, sub_eq_add_neg]

/-- The digits of an exponent, filled up to two. -/
theorem exponentDigits_spec (e : Nat) : ∃ ds : List Char,
    List.replicate (2 - (Nat.toDigits 10 e).length) '0' ++ Nat.toDigits 10 e = ds ∧ AllDigits ds ∧
      Nat.ofDigitChars 10 ds 0 = e ∧ 2 ≤ ds.length ∧ (2 < ds.length → ds.head? ≠ some '0') := by
  obtain ⟨c, cs, hcs, -, -⟩ := exists_toDigits e
  refine ⟨_, rfl, .append (.replicate _) (allDigits_toDigits e), ?_, ?_, fun hlength => ?_⟩
  · rw [Nat.ofDigitChars_append, Nat.ofDigitChars_replicate_zero, Nat.mul_zero, Nat.ofDigitChars_ten_toDigits]
  · rw [List.length_append, List.length_replicate]
    omega
  · rw [List.length_append, List.length_replicate] at hlength
    have he : e ≠ 0 := by
      rintro rfl
      rw [Nat.toDigits_zero] at hlength
      exact absurd hlength (by decide)
    rw [show 2 - (Nat.toDigits 10 e).length = 0 by omega, List.replicate_zero, List.nil_append, hcs]
    exact fun h => head_toDigits_ne he hcs (Option.some.inj h)

theorem scientificText_eq {c : Char} {cs es : List Char} (hcs : d.text = c :: cs)
    (hes : List.replicate (2 - (Nat.toDigits 10 d.exponent.natAbs).length) '0' ++ Nat.toDigits 10 d.exponent.natAbs = es) :
    floatLayout.scientificText d =
      [c] ++ Numeral.fractionText cs ++ Numeral.exponentText (some (decide (d.exponent < 0), es)) := by
  have htail : 'e' :: (if d.exponent < 0 then ['-'] else ['+']) ++ es =
      Numeral.exponentText (some (decide (d.exponent < 0), es)) := by
    rw [Numeral.exponentText]
    simp only [decide_eq_true_eq]
    split <;> rfl
  rw [← htail, ← hes, FloatLayout.scientificText]
  dsimp only [floatLayout]
  rw [List.append_assoc, List.append_assoc]
  cases cs <;> simp only [hcs] <;> rfl

/-- **Scientific digits are a numeral in scientific notation.** -/
theorem exists_numeral_scientificText (negative : Bool) (hd : d.digits % 10 ≠ 0) : ∃ n : Numeral,
    n.text = (if negative then ['-'] else []) ++ floatLayout.scientificText d ∧ n.negative = negative ∧
      n.value = (if negative then -1 else 1) * d.value ∧ n.IsTidy ∧ n.IsScientific d.exponent := by
  obtain ⟨hall, hvalue, hne, hhead, hlast⟩ := d.text_spec fun h => hd (by rw [h])
  obtain ⟨es, hes, hallExponent, hvalueExponent, hlength, hlong⟩ := exponentDigits_spec d.exponent.natAbs
  have hexponent : d.exponent = d.text.length + d.scale - 1 := rfl
  obtain ⟨c, cs, hcs⟩ := List.exists_cons_of_ne_nil hne
  rw [scientificText_eq hcs hes]
  rw [hcs] at hall hvalue hhead hlast hexponent
  have hc : c ≠ '0' := fun h => hhead (congrArg some h)
  have htidy : cs.getLast? ≠ some '0' := by
    cases cs with
    | nil => exact nofun
    | cons c' cs => exact List.getLast?_cons_cons ▸ hlast hd
  -- the point moves behind the first digit, and the exponent makes up for it
  have hpower : (if decide (d.exponent < 0) = true then -(d.exponent.natAbs : Int) else d.exponent.natAbs) - cs.length =
      d.scale := by
    rw [List.length_cons] at hexponent
    simp only [decide_eq_true_eq]
    split <;> omega
  refine ⟨⟨negative, [c], cs, some (decide (d.exponent < 0), es), List.cons_ne_nil _ _, hall, ?_⟩, rfl, rfl, ?_,
    ⟨.inr fun h => hc (Option.some.inj h), htidy⟩, ⟨⟨c, rfl, hc⟩, es, rfl, hvalueExponent, hlength, hlong⟩⟩
  · rintro _ ⟨⟩
    exact ⟨List.ne_nil_of_length_pos (Nat.lt_of_lt_of_le Nat.two_pos hlength), hallExponent⟩
  · rw [Numeral.value, Numeral.power, Digits.value, List.singleton_append]
    dsimp only
    rw [hvalue, hvalueExponent, hpower]

variable {x : Binary64} {q : ℚ}

theorem magnitudeText_floatLayout (hzero : x.isZero = false) : floatLayout.magnitudeText x =
    if -4 ≤ (x.rounded 14).exponent ∧ (x.rounded 14).exponent < 14 then
      floatLayout.positionalText (x.roundedTo ((x.rounded 14).exponent - 13))
    else floatLayout.scientificText (x.rounded 14) := by
  have hhigh : ∀ e : Int, e ≤ 13 ↔ e < 14 := fun e => Int.lt_add_one_iff.symm
  rw [FloatLayout.magnitudeText]
  dsimp only [floatLayout, FloatLayout.digits, FloatLayout.positionalDigits]
  simp only [hzero, Bool.false_eq_true, false_or, if_false, hhigh]
  rfl

/-- **The text of a double is its number, rounded to fourteen significant digits**, ties to even, with its sign and without
needless zeros: it is the text of one numeral, which denotes that number.  The notation is plain when the exponent `e` of the
rounded number is from -4 to 13, though the number is then rounded a second time, to `13 - e` places: that is the same
rounding.  Otherwise the notation is scientific with that exponent. -/
theorem floatText_eq_numeral (hq : x.toRat? = some q) (h0 : q ≠ 0) :
    let r := Decimal.roundSignificant 14 q
    let e := Decimal.exponent r
    ∃ n : Numeral, (∀ m : Numeral, (floatText x).toList = m.text ↔ m = n) ∧
      n.negative = decide (q < 0) ∧ n.value = r ∧ n.IsTidy ∧
      if -4 ≤ e ∧ e < 14 then n.IsPlain ∧ Decimal.roundTo (-(13 - e)) q = r else n.IsScientific e := by
  intro r e
  obtain ⟨-, hmagnitude, hnegative⟩ := Binary64.magnitude_of_toRat? hq h0
  have hzero := Binary64.isZero_of_toRat? hq h0
  have hne : Decimal.roundSignificant 14 |q| ≠ 0 := Decimal.roundSignificant_ne_zero (abs_ne_zero.2 h0) 14
  have hrounded : (x.rounded 14).value = Decimal.roundSignificant 14 |q| := Binary64.value_rounded hq h0 14
  have hsign : r = (if x.negative then -1 else 1) * Decimal.roundSignificant 14 |q| := by
    simp only [hnegative, decide_eq_true_eq]
    exact Decimal.roundSignificant_abs 14 q
  have hexponent : (x.rounded 14).exponent = Decimal.exponent (Decimal.roundSignificant 14 |q|) := by
    rw [Digits.exponent_eq (Digits.digits_ne_zero (hrounded ▸ hne)), hrounded]
  have he : e = (x.rounded 14).exponent := by
    show Decimal.exponent r = _
    rw [hexponent, hsign]
    split
    · rw [neg_one_mul, Decimal.exponent_neg]
    · rw [one_mul]
  rw [floatText, FloatLayout.toList_render _ (Binary64.toRat?_eq_some_iff.1 hq).1, magnitudeText_floatLayout hzero, ← he,
    ← hnegative]
  by_cases hplain : -4 ≤ e ∧ e < 14
  · -- the digits come from the second rounding, which is the first
    have hplaces : -(13 - e) = e - 13 := by omega
    have hdigits : (x.roundedTo (e - 13)).value = Decimal.roundSignificant 14 |q| := by
      rw [Binary64.value_roundedTo, ← hmagnitude, he, hexponent]
      exact Decimal.roundTo_exponent (abs_ne_zero.2 h0) 14
    obtain ⟨n, hn, hneg, hvalue, htidy, hform⟩ :=
      exists_numeral_positionalText x.negative (Binary64.digits_roundedTo_mod_ne (hdigits ▸ hne))
    refine ⟨n, Numeral.eq_text_iff ?_, hneg, by rw [hvalue, hdigits, hsign], htidy, ?_⟩
    · rw [if_pos hplain, hn]
    · rw [if_pos hplain, hplaces]
      exact ⟨hform, Decimal.roundTo_exponent h0 14⟩
  · obtain ⟨n, hn, hneg, hvalue, htidy, hform⟩ :=
      exists_numeral_scientificText x.negative (Binary64.digits_rounded_mod_ne hzero (hrounded ▸ hne))
    refine ⟨n, Numeral.eq_text_iff ?_, hneg, by rw [hvalue, hrounded, hsign], htidy, ?_⟩
    · rw [if_neg hplain, hn]
    · rw [if_neg hplain, he]
      exact hform

/-- A half below a power of ten is a tie that carries: the exponent of the number is in the plain range, that of the rounded
number is not. -/
theorem floatText_eq_numeral_tie :
    (Binary64.ofRatio true 199999999999999 2).toRat? = some (-199999999999999 / 2) ∧ (-199999999999999 / 2 : ℚ) ≠ 0 ∧
      floatText (.ofRatio true 199999999999999 2) = "-1e+14" ∧
      ∃ n : Numeral, (∀ m : Numeral, (floatText (.ofRatio true 199999999999999 2)).toList = m.text ↔ m = n) ∧
        n.negative = true ∧ n.value = -10 ^ 14 ∧ n.IsTidy ∧ n.IsScientific 14 := by
  have hq : (Binary64.ofRatio true 199999999999999 2).toRat? = some (-199999999999999 / 2) := by
    refine Binary64.toRat?_eq_some_iff.2 ⟨by decide +kernel, ?_⟩
    rw [show (Binary64.ofRatio true 199999999999999 2).signedMagnitude = -(199999999999999 * twoTo 1073 : Nat) by
      decide +kernel, Int.cast_neg, Int.cast_natCast, Nat.cast_mul, cast_twoTo, pow_succ _ 1073]
    generalize (2 : ℚ) ^ 1073 = unit
    push_cast
    ring
  have h0 : (-199999999999999 / 2 : ℚ) ≠ 0 := by norm_num
  have hexponent : Decimal.exponent (199999999999999 / 2) = 13 := Decimal.exponent_eq (by norm_num) (by norm_num)
  have hr : Decimal.roundSignificant 14 (-199999999999999 / 2) = -10 ^ 14 := by
    rw [neg_div, Decimal.roundSignificant_neg, Decimal.roundSignificant, hexponent, Decimal.roundTo,
      Decimal.nearest_eq (k := 10 ^ 14)] <;> norm_num
  have he : Decimal.exponent (-10 ^ 14) = 14 := by
    rw [Decimal.exponent_neg]
    exact Decimal.exponent_eq (by norm_num) (by norm_num)
  obtain ⟨n, htext, hnegative, hvalue, htidy, hform⟩ := floatText_eq_numeral hq h0
  rw [hr, he, if_neg (by decide)] at hform
  refine ⟨hq, h0, by decide +kernel, n, htext, ?_, hvalue.trans hr, htidy, hform⟩
  rw [hnegative]
  exact decide_eq_true (by norm_num)

end Number
end Interchange
