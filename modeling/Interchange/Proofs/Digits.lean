import Interchange.Number.Layout
import Interchange.Proofs.Exact
/-!
# Digits — numbers as digits of a text

The digits of a number start with no zero, are as many as its decimal length, and end with a zero only if the number is a
multiple of ten.  Zeros moved from the digits into the scale leave the number as it is (`Digits.value_trim`), and none is left
(`Digits.digits_trim_mod_ne`).
-/
namespace Interchange

/-- Characters that are digits. -/
def AllDigits (ds : List Char) : Prop := ∀ c ∈ ds, c.isDigit = true

theorem allDigits_toDigits (n : Nat) : AllDigits (Nat.toDigits 10 n) := fun _ hc =>
  Nat.isDigit_of_mem_toDigits (by decide) (by decide) hc

theorem AllDigits.append {ds es : List Char} (hd : AllDigits ds) (he : AllDigits es) : AllDigits (ds ++ es) := fun c hc =>
  (List.mem_append.1 hc).elim (hd c) (he c)

theorem AllDigits.replicate (n : Nat) : AllDigits (List.replicate n '0') := fun c hc => by
  rw [(List.mem_replicate.1 hc).2]; rfl

/-- **Digits end where something else begins**, so a text goes on with digits in one way only. -/
theorem AllDigits.append_inj {ds es rest rest' : List Char} (hd : AllDigits ds) (he : AllDigits es)
    (hr : ∀ c ∈ rest.head?, c.isDigit = false) (hr' : ∀ c ∈ rest'.head?, c.isDigit = false) (h : ds ++ rest = es ++ rest') :
    ds = es ∧ rest = rest' := by
  have htake : ∀ {ds rest : List Char}, AllDigits ds → (∀ c ∈ rest.head?, c.isDigit = false) →
      (ds ++ rest).takeWhile Char.isDigit = ds := fun {ds rest} hd hr => by
    rw [List.takeWhile_append_of_pos hd]
    cases rest with
    | nil => rw [List.takeWhile_nil, List.append_nil]
    | cons c cs => rw [List.takeWhile_cons, hr c rfl, if_neg Bool.false_ne_true, List.append_nil]
  obtain rfl : ds = es := (htake hd hr).symm.trans ((congrArg _ h).trans (htake he hr'))
  exact ⟨rfl, List.append_cancel_left h⟩

theorem exists_toDigits (n : Nat) : ∃ c cs, Nat.toDigits 10 n = c :: cs ∧ c.isDigit = true ∧ AllDigits cs := by
  obtain ⟨c, cs, h⟩ := List.exists_cons_of_ne_nil (Nat.toDigits_ne_nil (n := n) (b := 10))
  have hall := allDigits_toDigits n
  rw [h] at hall
  exact ⟨c, cs, h, hall c List.mem_cons_self, fun c' hc => hall c' (List.mem_cons_of_mem _ hc)⟩

theorem head_toDigits_ne {n : Nat} (hn : n ≠ 0) {c : Char} {cs : List Char} (h : Nat.toDigits 10 n = c :: cs) :
    c ≠ '0' := by
  induction n using Nat.strongRecOn generalizing cs with
  | _ n ih =>
    rw [Nat.toDigits_eq_if (by decide)] at h
    split at h
    · rename_i hlt
      have hall : ∀ n < 10, n ≠ 0 → n.digitChar ≠ '0' := by decide
      obtain ⟨rfl, -⟩ := List.cons.inj h
      exact hall n hlt hn
    · obtain ⟨c', cs', h'⟩ := List.exists_cons_of_ne_nil (Nat.toDigits_ne_nil (n := n / 10) (b := 10))
      rw [h', List.cons_append] at h
      obtain ⟨rfl, -⟩ := List.cons.inj h
      exact ih (n / 10) (by omega) (by omega) h'

theorem length_toDigits {n : Nat} (hn : n ≠ 0) : (Nat.toDigits 10 n).length = decimalLength n := by
  have hlt := lt_tenTo_decimalLength n
  have hge := tenTo_decimalLength_le hn
  have hpos := decimalLength_pos hn
  apply Nat.le_antisymm
  · exact (Nat.length_toDigits_le_iff (by decide) hpos).2 hlt
  · have hlen := (Nat.length_toDigits_le_iff (n := n) (b := 10) (by decide) Nat.length_toDigits_pos).1 (Nat.le_refl _)
    by_contra hc
    have := tenTo_le (Nat.succ_le_of_lt (Nat.lt_of_not_le hc))
    rw [Nat.succ_eq_add_one, tenTo_succ] at this
    have : tenTo (Nat.toDigits 10 n).length ≤ n := by omega
    exact absurd hlen (Nat.not_lt.2 this)

/-- **The last digit of a number** is zero for multiples of ten alone. -/
theorem getLast?_toDigits_ne {n : Nat} (hn : n % 10 ≠ 0) : (Nat.toDigits 10 n).getLast? ≠ some '0' := by
  have hdigit : ∀ k < 10, k ≠ 0 → some k.digitChar ≠ some '0' := by decide
  rw [Nat.toDigits_eq_if (by decide)]
  split
  · rename_i hlt
    rw [List.getLast?_singleton]
    exact hdigit n hlt (by omega)
  · rw [List.getLast?_append, List.getLast?_singleton]
    exact hdigit (n % 10) (by omega) hn

theorem cast_tenTo (k : Nat) : (tenTo k : ℚ) = 10 ^ k := Nat.cast_pow 10 k

namespace Digits

variable {d : Digits}

/-- **The number of digits.** -/
def value (d : Digits) : ℚ := d.digits * 10 ^ d.scale

theorem value_trimWithin : ∀ (fuel : Nat) (d : Digits), (d.trimWithin fuel).value = d.value
  | 0, _ => rfl
  | fuel + 1, d => by
    rw [trimWithin]
    split
    · rename_i hd
      have hdigits : (d.digits : ℚ) = (d.digits / 10 : Nat) * 10 := by
        exact_mod_cast (Nat.div_mul_cancel (Nat.dvd_of_mod_eq_zero hd.2)).symm
      rw [value_trimWithin fuel, value, value, hdigits, zpow_add_one₀ (by norm_num), mul_assoc, mul_comm (10 : ℚ)]
    · rfl

/-- **Zeros moved into the scale leave the number as it is.** -/
theorem value_trim (d : Digits) : d.trim.value = d.value := value_trimWithin _ d

theorem digits_trimWithin_mod_ne : ∀ {fuel : Nat} {d : Digits}, d.digits ≠ 0 → d.digits < tenTo fuel →
    (d.trimWithin fuel).digits % 10 ≠ 0
  | 0, d, h0, hlt => absurd (Nat.lt_one_iff.1 hlt) h0
  | fuel + 1, d, h0, hlt => by
    rw [tenTo_succ] at hlt
    rw [trimWithin]
    split
    · exact digits_trimWithin_mod_ne (show d.digits / 10 ≠ 0 by omega) (show d.digits / 10 < tenTo fuel by omega)
    · rename_i hd
      exact fun hmod => hd ⟨h0, hmod⟩

/-- **No zero is left at the end.** -/
theorem digits_trim_mod_ne (h0 : d.digits ≠ 0) : d.trim.digits % 10 ≠ 0 :=
  digits_trimWithin_mod_ne h0 (lt_tenTo_decimalLength d.digits)

/-- **The text of digits**: no zero is in front, and one is at the end of multiples of ten alone. -/
theorem text_spec (h0 : d.digits ≠ 0) : AllDigits d.text ∧ Nat.ofDigitChars 10 d.text 0 = d.digits ∧ d.text ≠ [] ∧
    d.text.head? ≠ some '0' ∧ (d.digits % 10 ≠ 0 → d.text.getLast? ≠ some '0') := by
  obtain ⟨c, cs, hcs, -, -⟩ := exists_toDigits d.digits
  refine ⟨allDigits_toDigits _, Nat.ofDigitChars_ten_toDigits, ?_, ?_, getLast?_toDigits_ne⟩
  · rw [text, hcs]; exact List.cons_ne_nil _ _
  · rw [text, hcs]; exact fun h => head_toDigits_ne h0 hcs (Option.some.inj h)

theorem point_eq (h0 : d.digits ≠ 0) : d.point = decimalLength d.digits + d.scale := by
  rw [point, text, length_toDigits h0]

end Digits

/-- **Positional digits** are digits before the point and digits behind it, in which the digits of the number stand with zeros
in front, or behind if nothing is behind the point. -/
theorem FloatLayout.exists_positionalText_eq (layout : FloatLayout) {d : Digits} (hd : d.digits ≠ 0) :
    ∃ (whole fraction : List Char) (k : Nat),
      layout.positionalText d =
        whole ++ (if fraction = [] then if layout.wholePoint then ['.', '0'] else [] else '.' :: fraction) ∧
      whole ≠ [] ∧ AllDigits (whole ++ fraction) ∧ (whole = ['0'] ∨ whole.head? ≠ some '0') ∧
      (d.digits % 10 ≠ 0 → fraction.getLast? ≠ some '0') ∧
      Nat.ofDigitChars 10 (whole ++ fraction) 0 = d.digits * tenTo k ∧ d.scale = k - fraction.length := by
  obtain ⟨hall, hvalue, hne, hhead, hlast⟩ := d.text_spec hd
  have hpoint : d.point = d.text.length + d.scale := rfl
  have hlength := List.length_pos_iff.2 hne
  rw [positionalText]
  generalize d.text = ds at *
  generalize d.point = p at *
  split
  · -- the point stands before all digits
    rename_i hp
    generalize hzeros : (-p).toNat = k
    have hback : List.replicate k '0' ++ ds ≠ [] := List.append_ne_nil_of_right_ne_nil _ hne
    refine ⟨['0'], .replicate k '0' ++ ds, 0, by rw [if_neg hback]; rfl, List.cons_ne_nil _ _,
      .append (.replicate 1) (.append (.replicate _) hall), .inl rfl, ?_, ?_, ?_⟩
    · rwa [List.getLast?_append_of_ne_nil _ hne]
    · rw [Nat.ofDigitChars_append, Nat.ofDigitChars_append, Nat.ofDigitChars_replicate_zero,
        show Nat.ofDigitChars 10 ['0'] 0 = 0 from rfl, Nat.mul_zero, hvalue]
      exact (Nat.mul_one _).symm
    · rw [List.length_append, List.length_replicate]
      omega
  · split
    · -- the point would stand behind all digits
      rename_i hp hle
      generalize hzeros : p.toNat - ds.length = k
      refine ⟨ds ++ .replicate k '0', [], k, by rw [if_pos rfl], List.append_ne_nil_of_left_ne_nil hne _,
        .append (.append hall (.replicate _)) nofun, .inr (by rwa [List.head?_append_of_ne_nil _ hne]), fun _ => nofun, ?_, ?_⟩
      · rw [List.append_nil, Nat.ofDigitChars_append, Nat.ofDigitChars_replicate_zero, hvalue, Nat.mul_comm]
        rfl
      · rw [List.length_nil]
        omega
    · rename_i hp hlt
      have hsplit := List.take_append_drop p.toNat ds
      have htake : ds.take p.toNat ≠ [] := fun h => (List.take_eq_nil_iff.1 h).elim (by omega) hne
      have hdrop : ds.drop p.toNat ≠ [] := fun h => by rw [List.drop_eq_nil_iff] at h; omega
      refine ⟨ds.take p.toNat, ds.drop p.toNat, 0, by rw [if_neg hdrop], htake, by rwa [hsplit], .inr ?_, ?_, ?_, ?_⟩
      · rwa [← List.head?_append_of_ne_nil _ htake, hsplit]
      · rwa [← List.getLast?_append_of_ne_nil _ hdrop, hsplit]
      · rw [hsplit, hvalue]
        exact (Nat.mul_one _).symm
      · rw [List.length_drop]
        omega

/-- **The text of a finite double**: its sign, then its magnitude. -/
theorem FloatLayout.toList_render (layout : FloatLayout) {x : Binary64} (hf : x.isFinite = true) :
    (layout.render x).toList = (if x.negative then ['-'] else []) ++ layout.magnitudeText x := by
  have hinf : x.isInfinite = false := beq_eq_false_iff_ne.2 (Nat.ne_of_lt (of_decide_eq_true hf))
  rw [render, Binary64.isNaN_of_isFinite hf, if_neg Bool.false_ne_true]
  dsimp only
  rw [hinf, if_neg Bool.false_ne_true, String.toList_append, String.toList_ofList]
  split <;> rfl

end Interchange
