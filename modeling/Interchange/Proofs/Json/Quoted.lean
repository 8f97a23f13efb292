import Interchange.Json.Printer
import Interchange.Json.Reader
import Interchange.Proofs.Except
import Interchange.Proofs.Utf8
/-!
# Quoted — strings in JSON are read back

A string is read octet by octet, and an escape gives all octets of its character.  So the octets that are read are those
of the text, and the text comes back from them (`readString_quote`).
-/
namespace Interchange
namespace Json

open Utf8 (encode)

/-- **Octets behind an opening quote that are read to some octets** and leave others. -/
def ReadsTo (s octets after : List UInt8) : Prop :=
  ∃ bs, bs.map Prod.fst = octets ∧ ∀ fuel, s.length < fuel → readStringOctets fuel s = .ok (bs, after)

variable {s octets after : List UInt8}

theorem ReadsTo.close (rest : List UInt8) : ReadsTo (Octet.quote :: rest) [] rest := by
  refine ⟨[], rfl, fun fuel hfuel => ?_⟩
  obtain ⟨fuel, rfl⟩ := Nat.exists_eq_add_of_lt (Nat.zero_lt_of_lt hfuel)
  rw [Nat.zero_add, readStringOctets, if_pos rfl]

theorem ReadsTo.plain {b : UInt8} (hq : b ≠ Octet.quote) (hb : b ≠ Octet.backslash) (h20 : ¬ b < 0x20)
    (h : ReadsTo s octets after) : ReadsTo (b :: s) (b :: octets) after := by
  obtain ⟨bs, hbs, hread⟩ := h
  refine ⟨(b, s) :: bs, by rw [List.map_cons, hbs], fun fuel hfuel => ?_⟩
  obtain ⟨fuel, rfl⟩ := Nat.exists_eq_add_of_lt (Nat.zero_lt_of_lt hfuel)
  rw [Nat.zero_add] at hfuel ⊢
  rw [readStringOctets, if_neg hq, if_neg hb, if_neg h20, hread fuel (by simpa using hfuel)]
  rfl

theorem ReadsTo.plains {bs : List UInt8} (hbs : ∀ b ∈ bs, b ≠ Octet.quote ∧ b ≠ Octet.backslash ∧ ¬ b < 0x20)
    (h : ReadsTo s octets after) : ReadsTo (bs ++ s) (bs ++ octets) after := by
  induction bs with
  | nil => exact h
  | cons b bs ih =>
    obtain ⟨hq, hb, h20⟩ := hbs b List.mem_cons_self
    exact .plain hq hb h20 (ih fun b' hb' => hbs b' (List.mem_cons_of_mem _ hb'))

theorem ReadsTo.escape {c : Char} {e : List UInt8} (he : readEscape (e ++ s) = .ok (c, s)) (h : ReadsTo s octets after) :
    ReadsTo (Octet.backslash :: (e ++ s)) (String.utf8EncodeChar c ++ octets) after := by
  obtain ⟨bs, hbs, hread⟩ := h
  refine ⟨(String.utf8EncodeChar c).map (·, s) ++ bs, ?_, fun fuel hfuel => ?_⟩
  · rw [List.map_append, hbs, List.map_map]
    congr 1
    exact List.map_id _
  · obtain ⟨fuel, rfl⟩ := Nat.exists_eq_add_of_lt (Nat.zero_lt_of_lt hfuel)
    rw [Nat.zero_add] at hfuel ⊢
    rw [List.length_cons, List.length_append] at hfuel
    rw [readStringOctets, if_neg (by decide), if_pos rfl, he, ok_bind]
    dsimp only
    rw [hread fuel (by omega)]
    rfl

/-! ## Characters -/

theorem le_of_mem_utf8EncodeChar {c : Char} (hc : 128 ≤ c.toNat) {b : UInt8} (hb : b ∈ String.utf8EncodeChar c) :
    128 ≤ b.toNat := by
  have hval : c.val.toNat = c.toNat := rfl
  have hlt : c.toNat < 0x110000 := by have := Utf8.toNat_valid c; omega
  have hoct : ∀ n, 128 ≤ n → n < 256 → b = UInt8.ofNat n → 128 ≤ b.toNat := fun n h1 h2 h => by
    rw [h, UInt8.toNat_ofNat', Nat.mod_eq_of_lt (by omega)]
    exact h1
  unfold String.utf8EncodeChar at hb
  simp only [hval] at hb
  rw [if_neg (by omega)] at hb
  split at hb
  · simp only [List.mem_cons, List.not_mem_nil, or_false] at hb
    rcases hb with h | h <;> exact hoct _ (by omega) (by omega) h
  · split at hb
    · simp only [List.mem_cons, List.not_mem_nil, or_false] at hb
      rcases hb with h | h | h <;> exact hoct _ (by omega) (by omega) h
    · simp only [List.mem_cons, List.not_mem_nil, or_false] at hb
      rcases hb with h | h | h | h <;> exact hoct _ (by omega) (by omega) h

theorem plain_of_mem_utf8EncodeChar {c : Char} (hq : c ≠ '"') (hb : c ≠ '\\') (h20 : 0x20 ≤ c.toNat) {b : UInt8}
    (hm : b ∈ String.utf8EncodeChar c) : b ≠ Octet.quote ∧ b ≠ Octet.backslash ∧ ¬ b < 0x20 := by
  have hn : c.toNat ≠ 34 ∧ c.toNat ≠ 92 :=
    ⟨fun h => hq (Char.toNat_inj.1 h), fun h => hb (Char.toNat_inj.1 h)⟩
  have hbn : b.toNat ≠ 34 ∧ b.toNat ≠ 92 ∧ 32 ≤ b.toNat := by
    by_cases hc : c.toNat < 128
    · rw [Utf8.utf8EncodeChar_ascii hc, List.mem_singleton] at hm
      rw [hm, UInt8.toNat_ofNat', Nat.mod_eq_of_lt (show c.toNat < 2 ^ 8 by omega)]
      omega
    · have := le_of_mem_utf8EncodeChar (Nat.le_of_not_lt hc) hm
      omega
  refine ⟨fun h => hbn.1 (by rw [h]; rfl), fun h => hbn.2.1 (by rw [h]; rfl), ?_⟩
  rw [UInt8.lt_iff_toNat_lt]
  exact Nat.not_lt.2 hbn.2.2

theorem hexValue?_hexDigit : ∀ n < 16, encode [hexDigit n] = [UInt8.ofNat (hexDigit n).toNat] ∧
    Octet.hexValue? (UInt8.ofNat (hexDigit n).toNat) = some n := by decide

theorem readEscape_code {c : Char} (hc : c.toNat < 0x20) (s : List UInt8) :
    readEscape (encode ['u', '0', '0', hexDigit (c.toNat / 16), hexDigit (c.toNat % 16)] ++ s) = .ok (c, s) := by
  obtain ⟨e1, h1⟩ := hexValue?_hexDigit (c.toNat / 16) (by omega)
  obtain ⟨e2, h2⟩ := hexValue?_hexDigit (c.toNat % 16) (by omega)
  have hhex : encode ['u', '0', '0', hexDigit (c.toNat / 16), hexDigit (c.toNat % 16)] ++ s =
      Octet.letterU :: 0x30 :: 0x30 :: UInt8.ofNat (hexDigit (c.toNat / 16)).toNat ::
        UInt8.ofNat (hexDigit (c.toNat % 16)).toNat :: s := by
    rw [show ['u', '0', '0', hexDigit (c.toNat / 16), hexDigit (c.toNat % 16)] =
      ['u', '0', '0'] ++ ([hexDigit (c.toNat / 16)] ++ [hexDigit (c.toNat % 16)]) from rfl, Utf8.encode_append,
      Utf8.encode_append, e1, e2]
    rfl
  rw [hhex]
  change readCode _ = _
  rw [readCode, readHex, h1, h2, show Octet.hexValue? 0x30 = some 0 from rfl]
  dsimp only
  rw [ok_bind, show ((0 * 16 + 0) * 16 + c.toNat / 16) * 16 + c.toNat % 16 = c.toNat by omega]
  dsimp only
  rw [if_neg (by omega), if_neg (by omega), Char.ofNat_toNat]

/-- **A character inside quotes is read back.** -/
theorem ReadsTo.escapeChar (c : Char) (h : ReadsTo s octets after) :
    ReadsTo (encode (escapeChar c) ++ s) (String.utf8EncodeChar c ++ octets) after := by
  unfold Json.escapeChar
  split
  · exact h.escape (e := [Octet.quote]) rfl
  · exact h.escape (e := [Octet.backslash]) rfl
  · exact h.escape (e := [Octet.letterB]) rfl
  · exact h.escape (e := [Octet.letterT]) rfl
  · exact h.escape (e := [Octet.letterN]) rfl
  · exact h.escape (e := [Octet.letterF]) rfl
  · exact h.escape (e := [Octet.letterR]) rfl
  · rename_i hq hb _ _ _ _ _
    split
    · rename_i hc
      exact h.escape (readEscape_code hc s)
    · rename_i hc
      rw [show encode [c] = String.utf8EncodeChar c from List.append_nil _]
      exact h.plains fun b hm => plain_of_mem_utf8EncodeChar hq hb (Nat.le_of_not_lt hc) hm

/-! ## Strings -/

theorem readsTo_flatMap (rest : List UInt8) : ∀ cs : List Char,
    ReadsTo (encode (cs.flatMap escapeChar) ++ Octet.quote :: rest) (encode cs) rest
  | [] => .close rest
  | c :: cs => by
    rw [List.flatMap_cons, Utf8.encode_append, List.append_assoc, Utf8.encode_cons]
    exact .escapeChar c (readsTo_flatMap rest cs)

/-- **A string is read back** behind its opening quote. -/
theorem readString_quote (str : String) (rest : List UInt8) :
    readString (encode (str.toList.flatMap escapeChar) ++ Octet.quote :: rest) = .ok (str, rest) := by
  obtain ⟨bs, hbs, hread⟩ := readsTo_flatMap rest str.toList
  rw [readString, hread _ (Nat.lt_succ_self _), ok_bind]
  dsimp only
  rw [hbs, Utf8.decode_encode]
  dsimp only
  rw [String.ofList_toList]
  rfl

theorem encode_quote (str : String) :
    encode (quote str) = Octet.quote :: (encode (str.toList.flatMap escapeChar) ++ [Octet.quote]) := by
  rw [quote, Utf8.encode_cons, Utf8.encode_append]
  rfl

end Json
end Interchange
