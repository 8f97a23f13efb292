import Interchange.Proofs.Documents
import Interchange.Proofs.Json.Number
import Interchange.Proofs.Json.Quoted
import Mathlib.Data.List.DropRight
/-!
# Text — documents in JSON are read back

Blanks before a value change nothing, and what follows a value in a document ends a number.  So the reader goes through
a printed document as the printer did, and gives the document back (`parse_print`).
-/
namespace Interchange

/-- A scalar that JSON can hold: a double has to be finite. -/
def Json.Scalar.IsFinite : Scalar → Prop
  | .float x => x.isFinite = true
  | _ => True

namespace Json

open Utf8 (encode)

variable {room : Nat} {rest s : List UInt8}

/-! ## Blanks -/

theorem skipBlanks_skipBlanks (s : List UInt8) : skipBlanks (skipBlanks s) = skipBlanks s := by
  unfold skipBlanks
  exact List.dropWhile_idempotent _ _

theorem skipBlanks_append {blanks : List UInt8} (h : ∀ b ∈ blanks, Octet.isBlank b = true) (s : List UInt8) :
    skipBlanks (blanks ++ s) = skipBlanks s := List.dropWhile_append_of_pos h

theorem skipBlanks_cons {b : UInt8} (h : Octet.isBlank b = false) (s : List UInt8) : skipBlanks (b :: s) = b :: s := by
  rw [skipBlanks, List.dropWhile_cons, if_neg (by simp [h])]

theorem isBlank_of_mem_lineBreak {pretty : Bool} {level : Nat} : ∀ b ∈ encode (lineBreak pretty level),
    Octet.isBlank b = true := by
  intro b hb
  obtain ⟨c, hc, hb⟩ := List.mem_flatMap.1 hb
  unfold lineBreak at hc
  split at hc
  · rcases List.mem_cons.1 hc with rfl | hc
    · rw [List.mem_singleton.1 (show b ∈ [Octet.lineFeed] from hb)]; rfl
    · rw [(List.mem_replicate.1 hc).2] at hb
      rw [List.mem_singleton.1 (show b ∈ [Octet.space] from hb)]; rfl
  · cases hc

theorem skipBlanks_lineBreak (pretty : Bool) (level : Nat) (s : List UInt8) :
    skipBlanks (encode (lineBreak pretty level) ++ s) = skipBlanks s := skipBlanks_append isBlank_of_mem_lineBreak s

/-- **Blanks before a value change nothing.** -/
theorem readValue_skipBlanks (room : Nat) (s : List UInt8) : readValue room (skipBlanks s) = readValue room s := by
  rw [readValue.eq_def, readValue.eq_def room s, skipBlanks_skipBlanks]

theorem exists_of_readValue_ok {r : Document Scalar × List UInt8} (h : readValue room s = .ok r) :
    ∃ b rest, skipBlanks s = b :: rest ∧ b ≠ Octet.closeBracket := by
  rw [readValue.eq_def] at h
  cases hs : skipBlanks s with
  | nil => rw [hs] at h; cases h
  | cons b rest =>
    refine ⟨b, rest, rfl, ?_⟩
    rintro rfl
    rw [hs] at h
    cases h

/-! ## Scalars -/

theorem exists_of_readNumber_ok {negative : Bool} {r : Scalar × List UInt8} (h : readNumber negative s = .ok r) :
    ∃ b rest, s = b :: rest ∧ Octet.isDigit b = true := by
  cases s with
  | nil => cases h
  | cons b rest =>
    refine ⟨b, rest, rfl, ?_⟩
    rw [readNumber] at h
    split at h
    · rename_i hb; rw [hb]; rfl
    · split at h
      · assumption
      · cases h

theorem not_isBlank_of_isDigit {b : UInt8} (h : Octet.isDigit b = true) : Octet.isBlank b = false := by
  simp only [Octet.isDigit, Bool.and_eq_true, decide_eq_true_eq, UInt8.le_iff_toNat_le] at h
  have h48 : 48 ≤ b.toNat := h.1
  cases hb : Octet.isBlank b with
  | false => rfl
  | true =>
    simp only [Octet.isBlank, Bool.or_eq_true, beq_iff_eq] at hb
    rcases hb with ((rfl | rfl) | rfl) | rfl <;> exact absurd h48 (by decide)

theorem readValue_number {a : Scalar} (h : readNumber false s = .ok (a, rest)) :
    readValue room s = .ok (.scalar a, rest) := by
  obtain ⟨b, s, rfl, hb⟩ := exists_of_readNumber_ok h
  rw [readValue.eq_def, skipBlanks_cons (not_isBlank_of_isDigit hb)]
  dsimp only
  split <;> try cases hb
  rw [if_pos hb, h]
  rfl

theorem readValue_minus {a : Scalar} (h : readNumber true s = .ok (a, rest)) :
    readValue room (Octet.minus :: s) = .ok (.scalar a, rest) := by
  rw [readValue.eq_def]
  change (readNumber true s).map _ = _
  rw [h]
  rfl

theorem readWord_append (rest : List UInt8) : ∀ ws : List UInt8, readWord (ws ++ rest) ws = .ok rest
  | [] => by rw [readWord]; rfl
  | w :: ws => by rw [List.cons_append, readWord, if_pos rfl, readWord_append rest ws]

theorem readValue_signed {negative : Bool} {cs : List Char} {a : Scalar}
    (h : readNumber negative (encode cs ++ rest) = .ok (a, rest)) :
    readValue room (encode ((if negative then ['-'] else []) ++ cs) ++ rest) = .ok (.scalar a, rest) := by
  cases negative with
  | true => exact readValue_minus h
  | false => exact readValue_number h

/-- **A scalar is read back.** -/
theorem readValue_text {a : Scalar} (ha : a.IsFinite) (hr : EndsNumber rest) :
    readValue room (encode a.text ++ rest) = .ok (.scalar a, rest) := by
  cases a with
  | null =>
    rw [readValue.eq_def]
    change (readWord (encode "ull".toList ++ rest) _).map _ = _
    rw [readWord_append]
    rfl
  | bool b =>
    rw [readValue.eq_def]
    cases b with
    | true =>
      change (readWord (encode "rue".toList ++ rest) _).map _ = _
      rw [readWord_append]
      rfl
    | false =>
      change (readWord (encode "alse".toList ++ rest) _).map _ = _
      rw [readWord_append]
      rfl
  | integer i =>
    have hsign : (Number.integerText i).toList =
        (if decide (i.toInt < 0) then ['-'] else []) ++ Nat.toDigits 10 i.toInt.natAbs := by
      rw [toList_integerText]
      simp only [decide_eq_true_eq]
      split <;> rfl
    rw [Scalar.text, hsign]
    exact readValue_signed ((readNumber_toDigits hr _).trans (wholeNumber_natAbs i rest))
  | float x =>
    rw [Scalar.text, floatLayout.toList_render ha]
    exact readValue_signed (readNumber_magnitudeText ha hr)
  | string str =>
    rw [Scalar.text, encode_quote, List.cons_append, List.append_assoc, readValue.eq_def]
    change (readString (encode (str.toList.flatMap escapeChar) ++ Octet.quote :: rest)).map _ = _
    rw [readString_quote]
    rfl

/-! ## Containers -/

section

variable {pretty : Bool} {level : Nat}

theorem EndsNumber.cons {b : UInt8} (hd : Octet.isDigit b = false) (hp : b ≠ Octet.point) (he : b ≠ Octet.letterE)
    (hE : b ≠ Octet.upperE) (s : List UInt8) : EndsNumber (b :: s) :=
  ⟨fun _ h => by cases h; exact hd, fun h => hp (Option.some.inj h), fun h => he (Option.some.inj h),
    fun h => hE (Option.some.inj h)⟩

theorem EndsNumber.nil : EndsNumber [] := ⟨nofun, nofun, nofun, nofun⟩

theorem EndsNumber.close {b : UInt8} (hb : b = Octet.closeBracket ∨ b = Octet.closeBrace) (s : List UInt8) :
    EndsNumber (encode (lineBreak pretty level) ++ b :: s) := by
  unfold lineBreak
  cases pretty with
  | true => exact .cons (b := Octet.lineFeed) rfl (by decide) (by decide) (by decide) _
  | false => rcases hb with rfl | rfl <;> exact .cons rfl (by decide) (by decide) (by decide) _

theorem readItems_renderItems (close : Nat) (rest : List UInt8) : ∀ (ds : List (Document Scalar)) (fuel : Nat),
    ds.length < fuel →
    (∀ d ∈ ds, ∀ rest, EndsNumber rest → readValue room (encode (render pretty level d) ++ rest) = .ok (d, rest)) →
      readItems (readValue room) fuel false
        (encode (renderItems pretty level ds) ++ (encode (lineBreak pretty close) ++ Octet.closeBracket :: rest)) =
          .ok (ds, rest) ∧
      EndsNumber (encode (renderItems pretty level ds) ++
        (encode (lineBreak pretty close) ++ Octet.closeBracket :: rest))
  | _, 0, hfuel, _ => absurd hfuel (Nat.not_lt_zero _)
  | [], fuel + 1, _, _ => by
    refine ⟨?_, .close (.inl rfl) rest⟩
    rw [show encode (renderItems pretty level []) = [] from rfl, List.nil_append, readItems, skipBlanks_lineBreak,
      skipBlanks_cons rfl]
    rfl
  | d :: ds, fuel + 1, hfuel, hds => by
    obtain ⟨ih, hends⟩ := readItems_renderItems close rest ds fuel (Nat.lt_of_succ_lt_succ hfuel)
      fun d hd => hds d (List.mem_cons_of_mem _ hd)
    have hd := hds d List.mem_cons_self _ hends
    have hcons : encode (renderItems pretty level (d :: ds)) ++
        (encode (lineBreak pretty close) ++ Octet.closeBracket :: rest) =
        Octet.comma :: (encode (lineBreak pretty level) ++ (encode (render pretty level d) ++
          (encode (renderItems pretty level ds) ++ (encode (lineBreak pretty close) ++ Octet.closeBracket :: rest)))) := by
      rw [renderItems, Utf8.encode_cons, Utf8.encode_append, Utf8.encode_append]
      simp only [List.append_assoc]
      rfl
    obtain ⟨b, rest', hb, hne⟩ := exists_of_readValue_ok hd
    refine ⟨?_, by rw [hcons]; exact .cons rfl (by decide) (by decide) (by decide) _⟩
    rw [hcons, readItems, skipBlanks_cons rfl]
    dsimp only
    rw [if_neg (by decide), if_neg Bool.false_ne_true, if_pos rfl, skipBlanks_lineBreak, hb]
    dsimp only
    rw [if_neg hne, ← hb, readValue_skipBlanks, hd, ok_bind]
    dsimp only
    rw [ih]
    rfl

theorem readMember_render (name : String) {d : Document Scalar}
    (hd : readValue room (encode (render pretty level d) ++ s) = .ok (d, s)) :
    readMember (readValue room) (encode (name.toList.flatMap escapeChar) ++ Octet.quote ::
      (encode (colon pretty) ++ (encode (render pretty level d) ++ s))) = .ok ((name, d), s) := by
  obtain ⟨blanks, hcolon, hblanks⟩ : ∃ blanks, encode (colon pretty) = Octet.colon :: blanks ∧
      ∀ b ∈ blanks, Octet.isBlank b = true := by
    cases pretty with
    | true => exact ⟨[Octet.space], rfl, fun b hb => by rw [List.mem_singleton.1 hb]; rfl⟩
    | false => exact ⟨[], rfl, nofun⟩
  rw [readMember, readString_quote, ok_bind, hcolon]
  dsimp only
  rw [List.cons_append, skipBlanks_cons rfl]
  dsimp only
  rw [if_pos rfl, ← readValue_skipBlanks, skipBlanks_append hblanks, readValue_skipBlanks, hd]
  rfl

theorem readMembers_renderMembers (close : Nat) (rest : List UInt8) : ∀ (ms : List (String × Document Scalar)) (fuel : Nat),
    ms.length < fuel →
    (∀ m ∈ ms, ∀ rest, EndsNumber rest → readValue room (encode (render pretty level m.2) ++ rest) = .ok (m.2, rest)) →
      readMembers (readValue room) fuel false
        (encode (renderMembers pretty level ms) ++ (encode (lineBreak pretty close) ++ Octet.closeBrace :: rest)) =
          .ok (ms, rest) ∧
      EndsNumber (encode (renderMembers pretty level ms) ++
        (encode (lineBreak pretty close) ++ Octet.closeBrace :: rest))
  | _, 0, hfuel, _ => absurd hfuel (Nat.not_lt_zero _)
  | [], fuel + 1, _, _ => by
    refine ⟨?_, .close (.inr rfl) rest⟩
    rw [show encode (renderMembers pretty level []) = [] from rfl, List.nil_append, readMembers, skipBlanks_lineBreak,
      skipBlanks_cons rfl]
    rfl
  | (name, d) :: ms, fuel + 1, hfuel, hms => by
    obtain ⟨ih, hends⟩ := readMembers_renderMembers close rest ms fuel (Nat.lt_of_succ_lt_succ hfuel)
      fun m hm => hms m (List.mem_cons_of_mem _ hm)
    have hm := readMember_render name (hms _ List.mem_cons_self _ hends)
    have hcons : encode (renderMembers pretty level ((name, d) :: ms)) ++
        (encode (lineBreak pretty close) ++ Octet.closeBrace :: rest) =
        Octet.comma :: (encode (lineBreak pretty level) ++ Octet.quote :: (encode (name.toList.flatMap escapeChar) ++
          Octet.quote :: (encode (colon pretty) ++ (encode (render pretty level d) ++
          (encode (renderMembers pretty level ms) ++ (encode (lineBreak pretty close) ++ Octet.closeBrace :: rest)))))) := by
      rw [renderMembers, Utf8.encode_cons]
      simp only [Utf8.encode_append, encode_quote, List.append_assoc, List.cons_append, List.nil_append]
      rfl
    refine ⟨?_, by rw [hcons]; exact .cons rfl (by decide) (by decide) (by decide) _⟩
    rw [hcons, readMembers, skipBlanks_cons rfl]
    dsimp only
    rw [if_neg (by decide), if_neg Bool.false_ne_true, if_pos rfl, skipBlanks_lineBreak, skipBlanks_cons rfl]
    dsimp only
    rw [if_pos rfl, hm, ok_bind]
    dsimp only
    rw [ih]
    rfl

theorem length_le_encode : ∀ cs : List Char, cs.length ≤ (encode cs).length
  | [] => Nat.le_refl _
  | c :: cs => by
    have hc := List.length_pos_of_ne_nil (String.utf8EncodeChar_ne_nil (c := c))
    have ih := length_le_encode cs
    rw [Utf8.encode_cons, List.length_append, List.length_cons]
    omega

theorem length_le_renderItems (pretty : Bool) (level : Nat) :
    ∀ ds : List (Document Scalar), ds.length ≤ (renderItems pretty level ds).length
  | [] => Nat.zero_le _
  | d :: ds => by
    have ih := length_le_renderItems pretty level ds
    rw [renderItems]
    simp only [List.length_cons, List.length_append]
    omega

theorem length_le_renderMembers (pretty : Bool) (level : Nat) : ∀ ms : List (String × Document Scalar),
    ms.length ≤ (renderMembers pretty level ms).length
  | [] => Nat.zero_le _
  | (_, _) :: ms => by
    have ih := length_le_renderMembers pretty level ms
    rw [renderMembers]
    simp only [List.length_cons, List.length_append]
    omega

theorem readValue_list {ds : List (Document Scalar)}
    (hds : ∀ d ∈ ds, ∀ rest, EndsNumber rest →
      readValue room (encode (render pretty (level + 1) d) ++ rest) = .ok (d, rest)) :
    readValue (room + 1) (encode (render pretty level (.list ds)) ++ rest) = .ok (.list ds, rest) := by
  cases ds with
  | nil =>
    rw [readValue.eq_def]
    rfl
  | cons d ds =>
    have hcons : encode (render pretty level (.list (d :: ds))) ++ rest =
        Octet.openBracket :: (encode (lineBreak pretty (level + 1)) ++ (encode (render pretty (level + 1) d) ++
          (encode (renderItems pretty (level + 1) ds) ++
            (encode (lineBreak pretty level) ++ Octet.closeBracket :: rest)))) := by
      rw [render]
      simp only [Utf8.encode_append, Utf8.encode_cons, List.append_assoc, List.cons_append]
      rfl
    generalize htail : encode (lineBreak pretty (level + 1)) ++ (encode (render pretty (level + 1) d) ++
      (encode (renderItems pretty (level + 1) ds) ++ (encode (lineBreak pretty level) ++ Octet.closeBracket :: rest))) =
        tail at hcons
    have hfuel : ds.length < tail.length := by
      have h1 := length_le_renderItems pretty (level + 1) ds
      have h2 := length_le_encode (renderItems pretty (level + 1) ds)
      rw [← htail]
      simp only [List.length_append, List.length_cons]
      omega
    obtain ⟨hitems, hends⟩ := readItems_renderItems level rest ds tail.length hfuel
      fun d hd => hds d (List.mem_cons_of_mem _ hd)
    have hd := hds d List.mem_cons_self _ hends
    obtain ⟨b, rest', hb, hne⟩ := exists_of_readValue_ok hd
    rw [hcons, readValue.eq_def]
    change (readItems (readValue room) (tail.length + 1) true tail).map _ = _
    rw [readItems, ← htail, skipBlanks_lineBreak, hb]
    dsimp only
    rw [if_neg hne, if_pos rfl, ← hb, readValue_skipBlanks, hd, ok_bind]
    dsimp only
    rw [htail, hitems]
    rfl

theorem readValue_dict {ms : List (String × Document Scalar)}
    (hms : ∀ m ∈ ms, ∀ rest, EndsNumber rest →
      readValue room (encode (render pretty (level + 1) m.2) ++ rest) = .ok (m.2, rest)) :
    readValue (room + 1) (encode (render pretty level (.dict ms)) ++ rest) = .ok (.dict ms, rest) := by
  cases ms with
  | nil =>
    rw [readValue.eq_def]
    rfl
  | cons m ms =>
    obtain ⟨name, d⟩ := m
    have hcons : encode (render pretty level (.dict ((name, d) :: ms))) ++ rest =
        Octet.openBrace :: (encode (lineBreak pretty (level + 1)) ++ Octet.quote ::
          (encode (name.toList.flatMap escapeChar) ++ Octet.quote :: (encode (colon pretty) ++
          (encode (render pretty (level + 1) d) ++ (encode (renderMembers pretty (level + 1) ms) ++
          (encode (lineBreak pretty level) ++ Octet.closeBrace :: rest)))))) := by
      rw [render]
      simp only [Utf8.encode_append, Utf8.encode_cons, encode_quote, List.append_assoc, List.cons_append]
      rfl
    generalize htail : encode (lineBreak pretty (level + 1)) ++ Octet.quote ::
      (encode (name.toList.flatMap escapeChar) ++ Octet.quote :: (encode (colon pretty) ++
      (encode (render pretty (level + 1) d) ++ (encode (renderMembers pretty (level + 1) ms) ++
      (encode (lineBreak pretty level) ++ Octet.closeBrace :: rest))))) = tail at hcons
    have hfuel : ms.length < tail.length := by
      have h1 := length_le_renderMembers pretty (level + 1) ms
      have h2 := length_le_encode (renderMembers pretty (level + 1) ms)
      rw [← htail]
      simp only [List.length_append, List.length_cons]
      omega
    obtain ⟨hmembers, hends⟩ := readMembers_renderMembers level rest ms tail.length hfuel
      fun m hm => hms m (List.mem_cons_of_mem _ hm)
    have hm := readMember_render name (hms _ List.mem_cons_self _ hends)
    rw [hcons, readValue.eq_def]
    change (readMembers (readValue room) (tail.length + 1) true tail).map _ = _
    rw [readMembers, ← htail, skipBlanks_lineBreak, skipBlanks_cons rfl]
    dsimp only
    rw [if_neg (by decide), if_pos rfl, if_pos rfl, hm, ok_bind]
    dsimp only
    rw [htail, hmembers]
    rfl

/-- **A document is read back**, whatever follows that ends a number. -/
theorem readValue_render (pretty : Bool) {d : Document Scalar} (hd : d.Fits Scalar.IsFinite room) (level : Nat) :
    EndsNumber rest → readValue room (encode (render pretty level d) ++ rest) = .ok (d, rest) := by
  induction hd generalizing level rest with
  | scalar ha => rw [render]; exact readValue_text ha
  | list _ ih => exact fun _ => readValue_list fun d hd rest => ih d hd (level + 1)
  | dict _ ih => exact fun _ => readValue_dict fun m hm rest => ih m hm (level + 1)

end

/-- **The document of a printed document is the document**, if it nests no deeper than the reader goes. -/
theorem parse_print {d : Document Scalar} (pretty : Bool) (hd : d.Fits Scalar.IsFinite maxNesting) :
    parse (encode (print pretty d)) = .ok d := by
  have hread := readValue_render pretty hd 0 EndsNumber.nil
  rw [List.append_nil] at hread
  rw [parse, print, hread, ok_bind]
  rfl

end Json
end Interchange
