import Interchange.Json.Printer
import Interchange.Json.Reader
import Interchange.Proofs.Digits
import Interchange.Proofs.Readback
import Interchange.Proofs.Utf8
import Mathlib.Data.List.TakeDrop
/-!
# Number — numbers in JSON are read back

The reader takes the digits of a number one part after another: a whole part, a fraction, an exponent.  Each part has a
lemma, and every layout of the digits of a double puts such parts together to the same decimal number
(`readNumber_magnitudeText`).
-/
namespace Interchange

namespace Octet

/-- The octet of an ASCII character. -/
def ofChar (c : Char) : UInt8 := UInt8.ofNat c.toNat

theorem toNat_bounds {c : Char} (h : c.isDigit = true) : 48 ≤ c.toNat ∧ c.toNat ≤ 57 := by
  simpa [Char.isDigit, UInt32.le_iff_toNat_le] using h

theorem toNat_ofChar {c : Char} (h : c.toNat < 256) : (ofChar c).toNat = c.toNat := by
  rw [ofChar, UInt8.toNat_ofNat', Nat.mod_eq_of_lt h]

theorem isDigit_ofChar {c : Char} (h : c.isDigit = true) : isDigit (ofChar c) = true := by
  have hb := toNat_bounds h
  simp only [isDigit, Bool.and_eq_true, decide_eq_true_eq, UInt8.le_iff_toNat_le]
  rw [toNat_ofChar (by omega)]
  exact ⟨hb.1, hb.2⟩

theorem digit_ofChar {c : Char} (h : c.isDigit = true) : digit (ofChar c) = c.toNat - 48 := by
  have hb := toNat_bounds h
  rw [digit, toNat_ofChar (by omega)]

end Octet

namespace Json

open Utf8 (encode)

theorem encode_digits {ds : List Char} (h : AllDigits ds) : encode ds = ds.map Octet.ofChar := by
  induction ds with
  | nil => rfl
  | cons c ds ih =>
    rw [Utf8.encode_cons, Utf8.utf8EncodeChar_ascii (by have := Octet.toNat_bounds (h c List.mem_cons_self); omega),
      ih fun c' hc => h c' (List.mem_cons_of_mem _ hc)]
    rfl

/-- Octets that do not go on with a digit. -/
def NoDigit (rest : List UInt8) : Prop := ∀ b, rest.head? = some b → Octet.isDigit b = false

/-- **Octets that end a number.** -/
structure EndsNumber (rest : List UInt8) : Prop where
  noDigit : NoDigit rest
  noPoint : rest.head? ≠ some Octet.point
  noLetter : rest.head? ≠ some Octet.letterE
  noUpper : rest.head? ≠ some Octet.upperE

theorem splitDigits_encode {ds : List Char} (hd : AllDigits ds) {rest : List UInt8} (hr : NoDigit rest) :
    splitDigits (encode ds ++ rest) = (ds.map Octet.ofChar, rest) := by
  rw [encode_digits hd, splitDigits, List.span_eq_takeWhile_dropWhile]
  have hall : ∀ b ∈ ds.map Octet.ofChar, Octet.isDigit b = true := fun b hb => by
    obtain ⟨c, hc, rfl⟩ := List.mem_map.1 hb
    exact Octet.isDigit_ofChar (hd c hc)
  rw [List.takeWhile_append_of_pos hall, List.dropWhile_append_of_pos hall]
  cases rest with
  | nil => simp
  | cons b rest =>
    have := hr b rfl
    simp [this]

theorem digitsValue_map {ds : List Char} (hd : AllDigits ds) (acc : Nat) :
    digitsValue acc (ds.map Octet.ofChar) = Nat.ofDigitChars 10 ds acc := by
  induction ds generalizing acc with
  | nil => rfl
  | cons c ds ih =>
    rw [Nat.ofDigitChars_cons, List.map_cons, digitsValue, List.foldl_cons, Octet.digit_ofChar (hd c List.mem_cons_self)]
    rw [Nat.mul_comm 10 acc]
    exact ih (fun c' hc => hd c' (List.mem_cons_of_mem _ hc)) _

/-! ## Parts of a number -/

section

variable {negative : Bool} {rest : List UInt8}

theorem readFraction_end (hr : EndsNumber rest) (whole : Nat) :
    readFraction negative whole rest = wholeNumber negative whole rest := by
  unfold readFraction
  split
  · exact absurd rfl hr.noPoint
  · exact absurd rfl hr.noLetter
  · exact absurd rfl hr.noUpper
  · rfl

theorem readExponentPart_end (hr : EndsNumber rest) (digits : Nat) (shift : Int) :
    readExponentPart negative digits shift rest = floatOf negative digits shift rest := by
  unfold readExponentPart
  split
  · exact absurd rfl hr.noLetter
  · exact absurd rfl hr.noUpper
  · rfl

theorem readFraction_point {ds : List Char} (hd : AllDigits ds) (hne : ds ≠ []) (hr : NoDigit rest) (whole : Nat) :
    readFraction negative whole (Octet.point :: (encode ds ++ rest)) =
      readExponentPart negative (Nat.ofDigitChars 10 ds whole) (-(ds.length : Int)) rest := by
  obtain ⟨c, cs, rfl⟩ := List.exists_cons_of_ne_nil hne
  unfold readFraction
  split
  case h_1 s hs =>
    obtain rfl := (List.cons.inj hs).2
    rw [splitDigits_encode hd hr, List.map_cons]
    dsimp only
    rw [← List.map_cons, digitsValue_map hd, List.length_map]
  case h_2 hs => exact absurd (List.cons.inj hs).1 (by decide)
  case h_3 hs => exact absurd (List.cons.inj hs).1 (by decide)
  case h_4 hs _ _ => exact absurd rfl (hs _)

theorem le_ofDigitChars (ds : List Char) (acc : Nat) : acc ≤ Nat.ofDigitChars 10 ds acc := by
  induction ds generalizing acc with
  | nil => exact Nat.le_refl _
  | cons c ds ih =>
    rw [Nat.ofDigitChars_cons]
    exact Nat.le_trans (by omega) (ih _)

theorem readExponentDigits_encode {ds : List Char} (hd : AllDigits ds) (hr : NoDigit rest) (acc : Nat)
    (hlt : Nat.ofDigitChars 10 ds acc < twoTo 31) :
    readExponentDigits acc (encode ds ++ rest) = (Nat.ofDigitChars 10 ds acc, rest) := by
  rw [encode_digits hd]
  induction ds generalizing acc with
  | nil =>
    cases rest with
    | nil => rfl
    | cons b rest =>
      rw [List.map_nil, List.nil_append, readExponentDigits, hr b rfl]
      rfl
  | cons c ds ih =>
    have hc := hd c List.mem_cons_self
    rw [Nat.ofDigitChars_cons, show '0'.toNat = 48 from rfl] at hlt ⊢
    rw [List.map_cons, List.cons_append, readExponentDigits, if_pos (Octet.isDigit_ofChar hc), Octet.digit_ofChar hc]
    dsimp only
    rw [Nat.mul_comm 10 acc] at hlt ⊢
    rw [if_pos (Nat.lt_of_le_of_lt (le_ofDigitChars ds _) hlt)]
    exact ih (fun c' hc' => hd c' (List.mem_cons_of_mem _ hc')) _ hlt

theorem readExponent_encode (hr : NoDigit rest) (digits : Nat) (shift e : Int) (he : e.natAbs < twoTo 31) :
    readExponent negative digits shift
        ((if e < 0 then Octet.minus else Octet.plus) :: (encode (Nat.toDigits 10 e.natAbs) ++ rest)) =
      floatOf negative digits (e + shift) rest := by
  obtain ⟨c, cs, hcs, hc, hall⟩ := exists_toDigits e.natAbs
  have hval : Nat.ofDigitChars 10 cs (c.toNat - 48) = e.natAbs := by
    have := Nat.ofDigitChars_ten_toDigits (n := e.natAbs)
    rw [hcs, Nat.ofDigitChars_cons] at this
    simpa using this
  have hcons : encode (Nat.toDigits 10 e.natAbs) ++ rest = Octet.ofChar c :: (encode cs ++ rest) := by
    have hall' := allDigits_toDigits e.natAbs
    rw [hcs] at hall' ⊢
    rw [encode_digits hall', encode_digits hall]
    rfl
  have hdigits := readExponentDigits_encode hall hr (c.toNat - 48) (by rw [hval]; exact he)
  rw [hval] at hdigits
  rw [hcons]
  unfold readExponent
  by_cases hneg : e < 0
  · rw [if_pos hneg, show splitSign (Octet.minus :: Octet.ofChar c :: (encode cs ++ rest)) = (true, _) from rfl]
    dsimp only
    rw [if_pos (Octet.isDigit_ofChar hc), Octet.digit_ofChar hc, hdigits]
    dsimp only
    rw [if_pos he, if_pos rfl]
    congr 2
    omega
  · rw [if_neg hneg, show splitSign (Octet.plus :: Octet.ofChar c :: (encode cs ++ rest)) = (false, _) from rfl]
    dsimp only
    rw [if_pos (Octet.isDigit_ofChar hc), Octet.digit_ofChar hc, hdigits]
    dsimp only
    rw [if_pos he, if_neg Bool.false_ne_true]
    congr 2
    omega

theorem readNumber_zero (hr : NoDigit rest) : readNumber negative (Octet.zero :: rest) = readFraction negative 0 rest := by
  rw [readNumber, if_pos rfl, if_neg]
  cases rest with
  | nil => simp
  | cons b rest => simp [hr b rfl]

theorem readNumber_digits {c : Char} {cs : List Char} (hd : AllDigits (c :: cs)) (h0 : c ≠ '0') (hr : NoDigit rest) :
    readNumber negative (encode (c :: cs) ++ rest) = readFraction negative (Nat.ofDigitChars 10 (c :: cs) 0) rest := by
  have hc := hd c List.mem_cons_self
  have hcs : AllDigits cs := fun c' h => hd c' (List.mem_cons_of_mem _ h)
  have hne : Octet.ofChar c ≠ Octet.zero := fun h => by
    have hb := Octet.toNat_bounds hc
    have hn := congrArg UInt8.toNat h
    rw [Octet.toNat_ofChar (by omega)] at hn
    exact h0 (Char.toNat_inj.1 hn)
  have hcons : encode (c :: cs) ++ rest = Octet.ofChar c :: (encode cs ++ rest) := by
    rw [encode_digits hd, encode_digits hcs]
    rfl
  rw [hcons, readNumber, if_neg hne, if_pos (Octet.isDigit_ofChar hc), splitDigits_encode hcs hr]
  dsimp only
  rw [digitsValue_map hcs, Octet.digit_ofChar hc, Nat.ofDigitChars_cons]
  simp

end

/-! ## Integers -/

theorem readNumber_toDigits {negative : Bool} {rest : List UInt8} (hr : EndsNumber rest) (n : Nat) :
    readNumber negative (encode (Nat.toDigits 10 n) ++ rest) = wholeNumber negative n rest := by
  by_cases hn : n = 0
  · rw [hn, Nat.toDigits_zero]
    exact (readNumber_zero hr.noDigit).trans (readFraction_end hr 0)
  · obtain ⟨c, cs, hcs, -, -⟩ := exists_toDigits n
    have hall := allDigits_toDigits n
    have hval := Nat.ofDigitChars_ten_toDigits (n := n)
    rw [hcs] at hall hval ⊢
    rw [readNumber_digits hall (head_toDigits_ne hn hcs) hr.noDigit, hval, readFraction_end hr]

theorem toList_integerText (i : Int64) : (Number.integerText i).toList =
    if i.toInt < 0 then '-' :: Nat.toDigits 10 i.toInt.natAbs else Nat.toDigits 10 i.toInt.natAbs := by
  rw [Number.integerText, Int.toString_eq_repr, Int.repr_eq_if]
  split
  · rename_i h
    rw [if_neg (by omega), Nat.toList_repr, show i.toInt.toNat = i.toInt.natAbs by omega]
  · rename_i h
    rw [if_pos (by omega), String.toList_append, Nat.toList_repr, show (-i.toInt).toNat = i.toInt.natAbs by omega]
    rfl

theorem wholeNumber_natAbs (i : Int64) (rest : List UInt8) :
    wholeNumber (decide (i.toInt < 0)) i.toInt.natAbs rest = .ok (.integer i, rest) := by
  unfold wholeNumber
  by_cases hneg : i.toInt < 0
  · rw [decide_eq_true hneg, if_pos rfl, show -(i.toInt.natAbs : Int) = i.toInt by omega, int64?_toInt]
    dsimp only
    rw [if_neg]
    simp only [Bool.true_and, beq_iff_eq]
    omega
  · rw [decide_eq_false hneg, if_neg Bool.false_ne_true, show (i.toInt.natAbs : Int) = i.toInt by omega, int64?_toInt]
    rfl

/-! ## Doubles -/

section

variable (negative : Bool) {rest : List UInt8}

theorem allDigits_zero : AllDigits ['0'] := .replicate 1

/-- **Digits with a point among them**; a zero in front stands alone before the point. -/
theorem readNumber_point {c : Char} {cs ds : List Char} (hfront : AllDigits (c :: cs)) (h0 : c = '0' → cs = [])
    (hback : AllDigits ds) (hne : ds ≠ []) (hr : NoDigit rest) :
    readNumber negative (encode (c :: cs ++ '.' :: ds) ++ rest) =
      readExponentPart negative (Nat.ofDigitChars 10 (c :: cs ++ ds) 0) (-(ds.length : Int)) rest := by
  have hdot : encode (c :: cs ++ '.' :: ds) ++ rest = encode (c :: cs) ++ Octet.point :: (encode ds ++ rest) := by
    rw [Utf8.encode_append, List.append_assoc]
    rfl
  have hpoint : NoDigit (Octet.point :: (encode ds ++ rest)) := fun b hb => by cases hb; rfl
  rw [hdot, Nat.ofDigitChars_append]
  by_cases hc : c = '0'
  · cases hc
    cases h0 rfl
    exact (readNumber_zero hpoint).trans (readFraction_point hback hne hr 0)
  · rw [readNumber_digits hfront hc hpoint, readFraction_point hback hne hr]

/-- **Positional digits are read as the same decimal number**, with zeros perhaps moved into the digits. -/
theorem readNumber_positionalText (hr : EndsNumber rest) {d : Digits} (hd : d.digits ≠ 0) :
    ∃ k : Nat, readNumber negative (encode (floatLayout.positionalText d) ++ rest) =
      floatOf negative (d.digits * tenTo k) (d.scale - k) rest := by
  obtain ⟨whole, fraction, k, htext, hne, hall, hhead, -, hdigits, hscale⟩ := floatLayout.exists_positionalText_eq hd
  obtain ⟨c, cs, rfl⟩ := List.exists_cons_of_ne_nil hne
  have hfront : AllDigits (c :: cs) := fun c' hc => hall c' (List.mem_append_left _ hc)
  have h0 : c = '0' → cs = [] := by
    rintro rfl
    exact hhead.elim (fun h => (List.cons.inj h).2) fun h => absurd rfl h
  rw [htext]
  cases fraction with
  | nil =>
    -- one zero is written behind the point
    have hread := readNumber_point negative hfront h0 allDigits_zero (List.cons_ne_nil _ _) hr.noDigit
    rw [List.append_nil] at hdigits
    refine ⟨k + 1, hread.trans ?_⟩
    rw [readExponentPart_end hr, Nat.ofDigitChars_append, hdigits, tenTo_succ]
    congr 1
    · change 10 * (d.digits * tenTo k) = _
      ring
    · rw [hscale, List.length_singleton, List.length_nil]
      omega
  | cons c' ds =>
    have hback : AllDigits (c' :: ds) := fun c hc => hall c (List.mem_append_right _ hc)
    have hread := readNumber_point negative hfront h0 hback (List.cons_ne_nil _ _) hr.noDigit
    refine ⟨k, hread.trans ?_⟩
    rw [readExponentPart_end hr, hdigits]
    congr 1
    omega

/-- **Scientific digits are read as the same decimal number.** -/
theorem readNumber_scientificText (hr : EndsNumber rest) {d : Digits} (hd : d.digits ≠ 0)
    (he : d.exponent.natAbs < twoTo 31) :
    readNumber negative (encode (floatLayout.scientificText d) ++ rest) = floatOf negative d.digits d.scale rest := by
  obtain ⟨c, cs, hcs, hc, hall⟩ := exists_toDigits d.digits
  have hval := Nat.ofDigitChars_ten_toDigits (n := d.digits)
  have h0 := head_toDigits_ne hd hcs
  have htext : d.text = Nat.toDigits 10 d.digits := rfl
  have hexp : d.exponent = (Nat.toDigits 10 d.digits).length + d.scale - 1 := rfl
  have hone : AllDigits [c] := fun c' h => by rw [List.mem_singleton.1 h]; exact hc
  -- what follows the mantissa, whatever its form
  obtain ⟨tail, htail⟩ : ∃ tail, tail = (if d.exponent < 0 then Octet.minus else Octet.plus) ::
      (encode (Nat.toDigits 10 d.exponent.natAbs) ++ rest) := ⟨_, rfl⟩
  have hsuffix : ∀ mantissa : List Char, encode (mantissa ++
      'e' :: (if d.exponent < 0 then ['-'] else floatLayout.exponentPlus)
      ++ List.replicate (floatLayout.exponentWidth - (Nat.toDigits 10 d.exponent.natAbs).length) '0'
      ++ Nat.toDigits 10 d.exponent.natAbs) ++ rest = encode mantissa ++ Octet.letterE :: tail := by
    intro mantissa
    have hwidth : floatLayout.exponentWidth - (Nat.toDigits 10 d.exponent.natAbs).length = 0 := by
      have := Nat.length_toDigits_pos (n := d.exponent.natAbs) (b := 10)
      show 1 - _ = 0
      omega
    rw [hwidth, List.replicate_zero, List.append_nil, Utf8.encode_append, Utf8.encode_append, List.append_assoc,
      List.append_assoc, htail]
    split <;> rfl
  have hread : ∀ shift, readExponent negative d.digits shift tail = floatOf negative d.digits (d.exponent + shift) rest :=
    fun shift => by rw [htail]; exact readExponent_encode hr.noDigit d.digits shift d.exponent he
  unfold FloatLayout.scientificText
  dsimp only
  rw [hsuffix, htext]
  rw [hcs] at hval hexp ⊢
  cases cs with
  | nil =>
    rw [readNumber_digits hone h0 (fun b hb => by cases hb; rfl), hval]
    refine (hread 0).trans ?_
    congr 1
    simp only [List.length_singleton] at hexp
    omega
  | cons c' cs =>
    refine (readNumber_point negative hone (fun h => absurd h h0) hall (List.cons_ne_nil _ _)
      (fun b hb => by cases hb; rfl)).trans ?_
    refine (show readExponentPart _ _ _ _ = readExponent _ _ _ _ from rfl).trans ?_
    rw [List.singleton_append, hval, hread]
    congr 1
    simp only [List.length_cons] at hexp ⊢
    omega

theorem floatOf_eq {x : Binary64} (hf : x.isFinite = true) (hz : x.isZero = false) {digits : Nat} {scale : Int}
    (h : x.Holds digits scale) : floatOf x.negative digits scale rest = .ok (.float x, rest) := by
  unfold floatOf
  dsimp only
  rw [Binary64.ofDecimal_eq hf hz h, if_pos hf]

/-- **A finite double is read back from its digits**, behind its sign. -/
theorem readNumber_magnitudeText {x : Binary64} (hf : x.isFinite = true) (hr : EndsNumber rest) :
    readNumber x.negative (encode (floatLayout.magnitudeText x) ++ rest) = .ok (.float x, rest) := by
  unfold FloatLayout.magnitudeText
  dsimp only [floatLayout, FloatLayout.digits, FloatLayout.positionalDigits]
  cases hz : x.isZero with
  | true =>
    rw [if_pos (.inl rfl), Binary64.shortest, if_pos hz]
    refine (readNumber_point x.negative allDigits_zero (fun _ => rfl) allDigits_zero (List.cons_ne_nil _ _)
      hr.noDigit).trans ?_
    rw [readExponentPart_end hr, show Nat.ofDigitChars 10 (['0'] ++ ['0']) 0 = 0 from rfl, floatOf,
      Binary64.ofDecimal_zero, Binary64.zero_eq hz]
    exact if_pos hf
  | false =>
    have hh := Binary64.holds_shortest .toEven hz
    have hd := hh.digits_ne hf hz
    split
    · obtain ⟨k, hk⟩ := readNumber_positionalText x.negative hr hd
      exact hk.trans (floatOf_eq hf hz ((Binary64.Holds.mul_tenTo k).2 hh))
    · refine (readNumber_scientificText x.negative hr hd ?_).trans (floatOf_eq hf hz hh)
      have hb := hh.point_bounds hf hz
      rw [← length_toDigits hd] at hb
      have hexp : (x.shortest .toEven).exponent =
        (Nat.toDigits 10 (x.shortest .toEven).digits).length + (x.shortest .toEven).scale - 1 := rfl
      rw [hexp, show twoTo 31 = 2147483648 from rfl]
      omega

end

end Json
end Interchange
