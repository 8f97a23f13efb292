import Interchange.Text.Utf8
/-!
# Utf8 — a text comes back from its octets

Every character is read back from its octets whatever follows (`decodeChar_encode`), so a text is read back whole
(`decode_encode`).
-/
namespace Interchange
namespace Utf8

theorem encode_append (cs ds : List Char) : encode (cs ++ ds) = encode cs ++ encode ds := List.flatMap_append

theorem encode_cons (c : Char) (cs : List Char) : encode (c :: cs) = String.utf8EncodeChar c ++ encode cs := rfl

theorem isEmpty_encode : ∀ cs : List Char, (encode cs).isEmpty = cs.isEmpty
  | [] => rfl
  | c :: cs => by
    rw [encode_cons]
    cases hc : String.utf8EncodeChar c with
    | nil => exact absurd hc String.utf8EncodeChar_ne_nil
    | cons b bs => rfl

theorem utf8EncodeChar_ascii {c : Char} (h : c.toNat < 128) : String.utf8EncodeChar c = [UInt8.ofNat c.toNat] := by
  unfold String.utf8EncodeChar
  exact if_pos (Nat.le_of_lt_succ h)

/-! ## Octets by their number -/

section

variable {n m : Nat}

theorem ofNat_lt (hn : n < 256) {b : UInt8} : UInt8.ofNat n < b ↔ n < b.toNat := by
  rw [UInt8.lt_iff_toNat_lt, UInt8.toNat_ofNat', Nat.mod_eq_of_lt hn]

theorem le_ofNat (hn : n < 256) {b : UInt8} : b ≤ UInt8.ofNat n ↔ b.toNat ≤ n := by
  rw [UInt8.le_iff_toNat_le, UInt8.toNat_ofNat', Nat.mod_eq_of_lt hn]

theorem width_ofNat (hn : n < 256) : width (UInt8.ofNat n) =
    if n < 0x80 then 1 else if n < 0xC2 then 0 else if n < 0xE0 then 2 else if n < 0xF0 then 3
    else if n < 0xF5 then 4 else 0 := by
  unfold width
  simp only [ofNat_lt hn]
  rfl

theorem isContinuation_ofNat (hm : m < 64) : isContinuation (UInt8.ofNat (m + 0x80)) = true := by
  unfold isContinuation
  simp only [ofNat_lt (show m + 0x80 < 256 by omega), le_ofNat (show m + 0x80 < 256 by omega), Bool.and_eq_true,
    decide_eq_true_eq]
  exact ⟨by show 128 ≤ _; omega, by show _ < 192; omega⟩

theorem payload_ofNat (hm : m < 64) : payload (UInt8.ofNat (m + 0x80)) = m := by
  unfold payload
  rw [UInt8.toNat_ofNat', Nat.mod_eq_of_lt (show m + 0x80 < 2 ^ 8 by omega)]
  omega

theorem isSecond_ofNat (hn : n < 256) (hm : m < 64) (he0 : n = 0xE0 → 0x20 ≤ m) (hed : n = 0xED → m < 0x20)
    (hf0 : n = 0xF0 → 0x10 ≤ m) (hf4 : n = 0xF4 → m < 0x10) :
    isSecond (UInt8.ofNat n) (UInt8.ofNat (m + 0x80)) = true := by
  have hmm : m + 0x80 < 256 := by omega
  have hval : ∀ b : UInt8, UInt8.ofNat n = b → n = b.toNat := fun b hb => by
    rw [← hb, UInt8.toNat_ofNat', Nat.mod_eq_of_lt hn]
  unfold isSecond
  rw [isContinuation_ofNat hm, Bool.true_and]
  split
  · rename_i h
    have := he0 (hval _ h)
    simp only [le_ofNat hmm, decide_eq_true_eq]
    show 160 ≤ _
    omega
  · rename_i h
    have := hed (hval _ h)
    simp only [ofNat_lt hmm, decide_eq_true_eq]
    show _ < 160
    omega
  · rename_i h
    have := hf0 (hval _ h)
    simp only [le_ofNat hmm, decide_eq_true_eq]
    show 144 ≤ _
    omega
  · rename_i h
    have := hf4 (hval _ h)
    simp only [ofNat_lt hmm, decide_eq_true_eq]
    show _ < 144
    omega
  · rfl

end

/-! ## Characters -/

section

variable {n a b c : Nat} (rest : List UInt8)

theorem decodeChar_one (hn : n < 0x80) : decodeChar (UInt8.ofNat n :: rest) = .ok (Char.ofNat n, 1) := by
  unfold decodeChar
  dsimp only
  rw [width_ofNat (by omega), if_pos hn, UInt8.toNat_ofNat', Nat.mod_eq_of_lt (show n < 2 ^ 8 by omega)]
  cases rest <;> rfl

theorem decodeChar_two (hn : 0xC2 ≤ n ∧ n < 0xE0) (ha : a < 64) :
    decodeChar (UInt8.ofNat n :: UInt8.ofNat (a + 0x80) :: rest) = .ok (Char.ofNat (n % 32 * 64 + a), 2) := by
  unfold decodeChar
  dsimp only
  rw [width_ofNat (by omega), if_neg (by omega), if_neg (by omega), if_pos hn.2]
  change (if (!isSecond (UInt8.ofNat n) (UInt8.ofNat (a + 0x80))) = true then _ else _) = _
  rw [isSecond_ofNat (by omega) ha (by omega) (by omega) (by omega) (by omega), payload_ofNat ha, UInt8.toNat_ofNat',
    Nat.mod_eq_of_lt (show n < 2 ^ 8 by omega)]
  rfl

theorem decodeChar_three (hn : 0xE0 ≤ n ∧ n < 0xF0) (ha : a < 64) (hb : b < 64) (he0 : n = 0xE0 → 0x20 ≤ a)
    (hed : n = 0xED → a < 0x20) :
    decodeChar (UInt8.ofNat n :: UInt8.ofNat (a + 0x80) :: UInt8.ofNat (b + 0x80) :: rest) =
      .ok (Char.ofNat ((n % 16 * 64 + a) * 64 + b), 3) := by
  unfold decodeChar
  dsimp only
  rw [width_ofNat (by omega), if_neg (by omega), if_neg (by omega), if_neg (by omega), if_pos hn.2]
  change (if (!isSecond (UInt8.ofNat n) (UInt8.ofNat (a + 0x80))) = true then _ else _) = _
  rw [isSecond_ofNat (by omega) ha he0 hed (by omega) (by omega), payload_ofNat ha]
  dsimp only
  rw [isContinuation_ofNat hb, payload_ofNat hb, UInt8.toNat_ofNat', Nat.mod_eq_of_lt (show n < 2 ^ 8 by omega)]
  rfl

theorem decodeChar_four (hn : 0xF0 ≤ n ∧ n < 0xF5) (ha : a < 64) (hb : b < 64) (hc : c < 64)
    (hf0 : n = 0xF0 → 0x10 ≤ a) (hf4 : n = 0xF4 → a < 0x10) :
    decodeChar (UInt8.ofNat n :: UInt8.ofNat (a + 0x80) :: UInt8.ofNat (b + 0x80) :: UInt8.ofNat (c + 0x80) :: rest) =
      .ok (Char.ofNat (((n % 8 * 64 + a) * 64 + b) * 64 + c), 4) := by
  unfold decodeChar
  dsimp only
  rw [width_ofNat (by omega), if_neg (by omega), if_neg (by omega), if_neg (by omega), if_neg (by omega),
    if_pos hn.2]
  change (if (!isSecond (UInt8.ofNat n) (UInt8.ofNat (a + 0x80))) = true then _ else _) = _
  rw [isSecond_ofNat (by omega) ha (by omega) (by omega) hf0 hf4, payload_ofNat ha]
  dsimp only
  rw [isContinuation_ofNat hb, payload_ofNat hb, isContinuation_ofNat hc, payload_ofNat hc, UInt8.toNat_ofNat',
    Nat.mod_eq_of_lt (show n < 2 ^ 8 by omega)]
  rfl

end

theorem toNat_valid (c : Char) : c.toNat < 0xD800 ∨ (0xDFFF < c.toNat ∧ c.toNat < 0x110000) := c.valid

/-- **A character is read back from its octets.** -/
theorem decodeChar_encode (c : Char) (rest : List UInt8) :
    decodeChar (String.utf8EncodeChar c ++ rest) = .ok (c, (String.utf8EncodeChar c).length) := by
  have hv := toNat_valid c
  have hc : ∀ n, n = c.toNat → Char.ofNat n = c := fun n h => by rw [h]; exact Char.ofNat_toNat c
  have hval : c.val.toNat = c.toNat := rfl
  unfold String.utf8EncodeChar
  simp only [hval]
  split
  · exact (decodeChar_one rest (by omega)).trans (by rw [hc _ rfl]; rfl)
  · split
    · refine (decodeChar_two rest (by omega) (by omega)).trans ?_
      rw [hc _ (by omega)]
      rfl
    · split
      · refine (decodeChar_three rest (by omega) (by omega) (by omega) (by omega) (by omega)).trans ?_
        rw [hc _ (by omega)]
        rfl
      · refine (decodeChar_four rest (by omega) (by omega) (by omega) (by omega) (by omega) (by omega)).trans ?_
        rw [hc _ (by omega)]
        rfl

/-! ## Texts -/

theorem decodeFrom_skip (rest : List UInt8) : ∀ (skipped : List UInt8) (index : Nat),
    decodeFrom index skipped.length (skipped ++ rest) = decodeFrom (index + skipped.length) 0 rest
  | [], _ => rfl
  | _ :: skipped, index => by
    rw [List.length_cons, List.cons_append, decodeFrom, decodeFrom_skip rest skipped, Nat.add_right_comm, Nat.add_assoc]

theorem decodeFrom_encode : ∀ (cs : List Char) (index : Nat), decodeFrom index 0 (encode cs) = .ok cs
  | [], _ => rfl
  | c :: cs, index => by
    obtain ⟨b, bs, hb⟩ := List.exists_cons_of_ne_nil (String.utf8EncodeChar_ne_nil (c := c))
    have hd := decodeChar_encode c (encode cs)
    rw [encode_cons]
    rw [hb] at hd ⊢
    rw [List.cons_append] at hd ⊢
    rw [decodeFrom, hd]
    dsimp only
    rw [List.length_cons, Nat.add_sub_cancel, decodeFrom_skip, decodeFrom_encode cs]
    rfl

/-- **A text is read back from its octets.** -/
theorem decode_encode (cs : List Char) : decode (encode cs) = .ok cs := decodeFrom_encode cs 0

theorem decode?_encode (cs : List Char) : decode? (encode cs) = some cs := by rw [decode?, decode_encode]

end Utf8
end Interchange
