import Interchange.Proofs.Json.Text
import Interchange.Proofs.Settled
/-!
# Reading — what the reader gives

Every reader leaves the end of what it was given (`Reads`).  So a document that was read holds only finite doubles, nests
no deeper than the reader goes, and has no list with more items than there were octets (`isBounded_of_parse_ok`).
-/
namespace Interchange
namespace Json

/-- **A result of reading**: what was read is such, and what is left is the end of what there was. -/
def Reads {α : Type} (P : α → Prop) (s : List UInt8) (r : Except Fault (α × List UInt8)) : Prop :=
  ∀ a rest, r = .ok (a, rest) → P a ∧ rest <:+ s

namespace Reads

variable {α β : Type} {P : α → Prop} {Q : β → Prop} {s : List UInt8} {r : Except Fault (α × List UInt8)}

theorem error (f : Fault) : Reads P s (.error f) := nofun

theorem ok {a : α} {rest : List UInt8} (ha : P a) (hrest : rest <:+ s) : Reads P s (.ok (a, rest)) := by
  rintro _ _ ⟨⟩
  exact ⟨ha, hrest⟩

theorem of_suffix {u : List UInt8} (hr : Reads P u r) (hs : u <:+ s) : Reads P s r := fun a rest h =>
  ⟨(hr a rest h).1, (hr a rest h).2.trans hs⟩

/-- **What is read in two steps.** -/
theorem bind {f : α × List UInt8 → Except Fault (β × List UInt8)} (hr : Reads P s r)
    (hf : ∀ a rest, P a → rest <:+ s → Reads Q s (f (a, rest))) : Reads Q s (r >>= f) := by
  intro b rest h
  obtain ⟨⟨a, rest'⟩, ha, h⟩ := bind_eq_ok.1 h
  obtain ⟨hP, hrest⟩ := hr a rest' ha
  exact hf a rest' hP hrest b rest h

theorem imp {R : α → Prop} (hr : Reads P s r) (hPR : ∀ a, P a → R a) : Reads R s r := fun a rest h =>
  ⟨hPR a (hr a rest h).1, (hr a rest h).2⟩

/-- **What is read in front of others.** -/
theorem cons {R : List α → Prop} {others : List UInt8 → Except Fault (List α × List UInt8)} (hr : Reads P s r)
    (hothers : ∀ a rest, P a → rest <:+ s → Reads (fun as => R (a :: as)) rest (others rest)) :
    Reads R s (do
      let (a, rest) ← r
      let (as, rest) ← others rest
      return (a :: as, rest)) :=
  hr.bind fun a rest ha hrest => ((hothers a rest ha hrest).of_suffix hrest).bind fun _ _ has hrest' => .ok has hrest'

theorem map {f : α → β} (hr : Reads P s r) (hf : ∀ a, P a → Q (f a)) :
    Reads Q s (r.map fun x => (f x.1, x.2)) := by
  intro b rest h
  cases r with
  | error e => cases h
  | ok x =>
    cases h
    obtain ⟨hP, hrest⟩ := hr x.1 x.2 rfl
    exact ⟨hf _ hP, hrest⟩

end Reads

/-! ## Numbers -/

section

variable {s rest : List UInt8}

theorem skipBlanks_suffix (s : List UInt8) : skipBlanks s <:+ s := List.dropWhile_suffix _

theorem splitDigits_suffix (s : List UInt8) : (splitDigits s).2 <:+ s := by
  rw [splitDigits, List.span_eq_takeWhile_dropWhile]
  exact List.dropWhile_suffix _

theorem splitSign_suffix (s : List UInt8) : (splitSign s).2 <:+ s := by
  unfold splitSign
  split
  · exact List.suffix_cons _ _
  · exact List.suffix_cons _ _
  · exact List.suffix_rfl

theorem readExponentDigits_suffix : ∀ (acc : Nat) (s : List UInt8), (readExponentDigits acc s).2 <:+ s
  | _, [] => List.suffix_rfl
  | acc, b :: rest => by
    rw [readExponentDigits]
    split
    · dsimp only
      split
      · exact (readExponentDigits_suffix _ rest).trans (List.suffix_cons _ _)
      · exact List.suffix_cons _ _
    · exact List.suffix_rfl

theorem isFinite_zero (negative : Bool) : (Binary64.zero negative).isFinite = true := by
  cases negative <;> decide

theorem reads_floatOf (negative : Bool) (digits : Nat) (exponent : Int) (rest : List UInt8) :
    Reads Scalar.IsFinite rest (floatOf negative digits exponent rest) := by
  rw [floatOf]
  split
  · rename_i hfinite
    exact .ok hfinite List.suffix_rfl
  · exact .error _

theorem reads_readExponent (negative : Bool) (digits : Nat) (shift : Int) (s : List UInt8) :
    Reads Scalar.IsFinite s (readExponent negative digits shift s) := by
  have hsign := splitSign_suffix s
  rw [readExponent]
  generalize splitSign s = signed at hsign
  obtain ⟨down, s'⟩ := signed
  refine Reads.of_suffix ?_ hsign
  cases s' with
  | nil => exact .error _
  | cons b s' =>
    refine Reads.of_suffix (u := s') ?_ (List.suffix_cons _ _)
    dsimp only
    split
    · have hdigits := readExponentDigits_suffix (Octet.digit b) s'
      split
      · exact (reads_floatOf _ _ _ _).of_suffix hdigits
      · split
        · exact .error _
        · exact .ok (isFinite_zero negative) ((List.dropWhile_suffix _).trans hdigits)
    · exact .error _

theorem reads_readExponentPart (negative : Bool) (digits : Nat) (shift : Int) (s : List UInt8) :
    Reads Scalar.IsFinite s (readExponentPart negative digits shift s) := by
  unfold readExponentPart
  split
  · exact (reads_readExponent _ _ _ _).of_suffix (List.suffix_cons _ _)
  · exact (reads_readExponent _ _ _ _).of_suffix (List.suffix_cons _ _)
  · exact reads_floatOf _ _ _ _

theorem reads_wholeNumber (negative : Bool) (digits : Nat) (rest : List UInt8) :
    Reads Scalar.IsFinite rest (wholeNumber negative digits rest) := by
  unfold wholeNumber
  split
  · split
    · exact reads_floatOf _ _ _ _
    · exact .ok trivial List.suffix_rfl
  · exact reads_floatOf _ _ _ _

theorem reads_readFraction (negative : Bool) (whole : Nat) (s : List UInt8) :
    Reads Scalar.IsFinite s (readFraction negative whole s) := by
  unfold readFraction
  split
  · rename_i s
    have hdigits := splitDigits_suffix s
    refine Reads.of_suffix (u := s) ?_ (List.suffix_cons _ _)
    split
    · exact .error _
    · exact .error _
    · rename_i heq
      rw [heq] at hdigits
      exact (reads_readExponentPart _ _ _ _).of_suffix hdigits
  · exact (reads_readExponent _ _ _ _).of_suffix (List.suffix_cons _ _)
  · exact (reads_readExponent _ _ _ _).of_suffix (List.suffix_cons _ _)
  · exact reads_wholeNumber _ _ _

/-- **A number that was read is finite.** -/
theorem reads_readNumber (negative : Bool) (s : List UInt8) : Reads Scalar.IsFinite s (readNumber negative s) := by
  cases s with
  | nil => exact .error _
  | cons b s =>
    refine Reads.of_suffix (u := s) ?_ (List.suffix_cons _ _)
    rw [readNumber]
    split
    · split
      · exact .error _
      · exact reads_readFraction _ _ _
    · split
      · exact (reads_readFraction _ _ _).of_suffix (splitDigits_suffix s)
      · exact .error _

end

/-! ## Strings -/

section

theorem reads_readHex (s : List UInt8) : Reads (fun _ => True) s (readHex s) := by
  unfold readHex
  split
  · split
    · exact .ok trivial ⟨[_, _, _, _], rfl⟩
    · exact .error _
  · exact .error _

theorem reads_readLowSurrogate (high : Nat) (s : List UInt8) : Reads (fun _ => True) s (readLowSurrogate high s) := by
  unfold readLowSurrogate
  split
  · exact .error _
  · rename_i b rest
    refine Reads.of_suffix (u := rest) ?_ (List.suffix_cons _ _)
    split
    · exact .error _
    · split
      · exact .error _
      · rename_i b' rest
        refine Reads.of_suffix (u := rest) ?_ (List.suffix_cons _ _)
        split
        · exact .error _
        · refine (reads_readHex rest).bind fun low after _ hafter => ?_
          dsimp only
          split
          · exact .error _
          · exact .ok trivial hafter

theorem reads_readCode (s : List UInt8) : Reads (fun _ => True) s (readCode s) := by
  refine (reads_readHex s).bind fun code rest _ hrest => ?_
  dsimp only
  split
  · exact .error _
  · split
    · exact (reads_readLowSurrogate _ _).of_suffix hrest
    · exact .ok trivial hrest

theorem reads_readEscape (s : List UInt8) : Reads (fun _ => True) s (readEscape s) := by
  unfold readEscape
  split
  · exact .error _
  · rename_i b rest
    refine Reads.of_suffix (u := rest) ?_ (List.suffix_cons _ _)
    split <;> first | exact .ok trivial List.suffix_rfl | exact reads_readCode _ | exact .error _

theorem reads_readStringOctets : ∀ (fuel : Nat) (s : List UInt8), Reads (fun _ => True) s (readStringOctets fuel s)
  | 0, _ => .error _
  | _ + 1, [] => .error _
  | fuel + 1, b :: rest => by
    refine Reads.of_suffix (u := rest) ?_ (List.suffix_cons _ _)
    rw [readStringOctets]
    split
    · exact .ok trivial List.suffix_rfl
    · split
      · refine (reads_readEscape rest).bind fun c after _ hafter => ?_
        exact ((reads_readStringOctets fuel after).of_suffix hafter).bind fun bs rest _ hrest => .ok trivial hrest
      · split
        · exact .error _
        · exact (reads_readStringOctets fuel rest).bind fun bs rest _ hrest => .ok trivial hrest

theorem reads_readString (s : List UInt8) : Reads (fun _ => True) s (readString s) := by
  refine (reads_readStringOctets _ s).bind fun bs rest _ hrest => ?_
  dsimp only
  split
  · exact .ok trivial hrest
  · exact .error _

end

/-! ## Arrays and objects -/

section

variable {P : Document Scalar → Prop} {value : List UInt8 → Except Fault (Document Scalar × List UInt8)}

/-- **Items are what was read one after another**, each in a piece of its own. -/
theorem reads_readItems : ∀ (fuel : Nat) (first : Bool) (s : List UInt8), (∀ s', s' <:+ s → Reads P s' (value s')) →
    Reads (fun ds => (∀ d ∈ ds, P d) ∧ ds.length < fuel) s (readItems value fuel first s)
  | 0, _, _, _ => .error _
  | fuel + 1, first, s, hvalue => by
    have hothers : ∀ d rest, P d → rest <:+ s → Reads
        (fun ds => (∀ e ∈ d :: ds, P e) ∧ (d :: ds).length < fuel + 1) rest (readItems value fuel false rest) := by
      intro d rest hd hrest
      refine (reads_readItems fuel false rest fun s' hs' => hvalue s' (hs'.trans hrest)).imp fun ds hds => ⟨?_, ?_⟩
      · exact List.forall_mem_cons.2 ⟨hd, hds.1⟩
      · exact Nat.succ_lt_succ hds.2
    have hblanks := skipBlanks_suffix s
    rw [readItems]
    split
    · exact .error _
    · rename_i b rest heq
      rw [heq] at hblanks
      have hrest := (List.suffix_cons b rest).trans hblanks
      split
      · exact .ok ⟨List.forall_mem_nil _, Nat.succ_pos fuel⟩ hrest
      · dsimp only
        split
        · exact ((hvalue _ hblanks).of_suffix hblanks).cons hothers
        · split
          · have hblanks' := (skipBlanks_suffix rest).trans hrest
            split
            · exact .error _
            · rename_i c rest heq'
              rw [heq'] at hblanks'
              split
              · exact .error _
              · exact ((hvalue _ hblanks').of_suffix hblanks').cons hothers
          · exact .error _

theorem reads_readMember (s : List UInt8) (hvalue : ∀ s', s' <:+ s → Reads P s' (value s')) :
    Reads (fun m => P m.2) s (readMember value s) := by
  refine (reads_readString s).bind fun name rest _ hrest => ?_
  have hblanks := (skipBlanks_suffix rest).trans hrest
  dsimp only
  split
  · exact .error _
  · rename_i b rest heq
    rw [heq] at hblanks
    have hafter := (List.suffix_cons b rest).trans hblanks
    split
    · exact ((hvalue rest hafter).of_suffix hafter).bind fun d rest hd hrest => .ok hd hrest
    · exact .error _

theorem reads_readMembers : ∀ (fuel : Nat) (first : Bool) (s : List UInt8), (∀ s', s' <:+ s → Reads P s' (value s')) →
    Reads (fun ms => ∀ m ∈ ms, P m.2) s (readMembers value fuel first s)
  | 0, _, _, _ => .error _
  | fuel + 1, first, s, hvalue => by
    have hhead : ∀ s', s' <:+ s → Reads (fun m => P m.2) s (readMember value s') := fun s' hs' =>
      (reads_readMember s' fun s'' hs'' => hvalue s'' (hs''.trans hs')).of_suffix hs'
    have hothers : ∀ m : String × Document Scalar, ∀ rest, P m.2 → rest <:+ s →
        Reads (fun ms => ∀ m' ∈ m :: ms, P m'.2) rest (readMembers value fuel false rest) := by
      intro m rest hm hrest
      refine (reads_readMembers fuel false rest fun s' hs' => hvalue s' (hs'.trans hrest)).imp fun ms hms => ?_
      exact List.forall_mem_cons.2 ⟨hm, hms⟩
    have hblanks := skipBlanks_suffix s
    rw [readMembers]
    split
    · exact .error _
    · rename_i b rest heq
      rw [heq] at hblanks
      have hrest := (List.suffix_cons b rest).trans hblanks
      split
      · exact .ok (List.forall_mem_nil _) hrest
      · dsimp only
        split
        · split
          · exact (hhead _ hrest).cons hothers
          · exact .error _
        · split
          · have hblanks' := (skipBlanks_suffix rest).trans hrest
            split
            · exact .error _
            · rename_i c rest heq'
              rw [heq'] at hblanks'
              split
              · exact (hhead _ ((List.suffix_cons c rest).trans hblanks')).cons hothers
              · split <;> exact .error _
          · exact .error _

end

/-- A document of finite doubles that nests at most so deep and has at most so many items in a list. -/
def IsBounded (room size : Nat) (d : Document Scalar) : Prop :=
  d.Fits Scalar.IsFinite room ∧ d.Over Scalar.IsFinite (fun _ => True) fun items => items.length ≤ size

theorem IsBounded.scalar {room size : Nat} {a : Scalar} (ha : a.IsFinite) : IsBounded room size (.scalar a) :=
  ⟨.scalar ha, .scalar ha⟩

theorem readWord_suffix : ∀ (rest ws : List UInt8) {rest' : List UInt8}, readWord rest ws = .ok rest' → rest' <:+ rest
  | rest, [], _, h => by
    rw [readWord] at h
    cases h
    exact List.suffix_rfl
  | [], _ :: _, _, h => by cases h
  | b :: rest, w :: ws, _, h => by
    rw [readWord] at h
    split at h
    · exact (readWord_suffix rest ws h).trans (List.suffix_cons _ _)
    · cases h

theorem reads_word {P : Document Scalar → Prop} {a : Scalar} (ha : P (.scalar a)) (rest letters : List UInt8) :
    Reads P rest ((readWord rest letters).map fun rest => (.scalar a, rest)) := by
  intro d after h
  cases hword : readWord rest letters with
  | error e => rw [hword] at h; cases h
  | ok rest' =>
    rw [hword] at h
    cases h
    exact ⟨ha, readWord_suffix rest letters hword⟩

/-- **A value that was read is bounded** by the room for containers and by the octets there were. -/
theorem reads_readValue {size : Nat} (room : Nat) (s : List UInt8) (hs : s.length ≤ size) :
    Reads (IsBounded room size) s (readValue room s) := by
  have hblanks := skipBlanks_suffix s
  rw [readValue.eq_def]
  split
  · exact .error _
  · rename_i b rest heq
    rw [heq] at hblanks
    have hrest : rest <:+ s := (List.suffix_cons b rest).trans hblanks
    have hlen : rest.length ≤ size := hrest.length_le.trans hs
    dsimp only
    refine Reads.of_suffix ?_ hblanks
    split
    · exact (reads_word (.scalar trivial) _ _).of_suffix (List.suffix_cons _ _)
    · exact (reads_word (.scalar trivial) _ _).of_suffix (List.suffix_cons _ _)
    · exact (reads_word (.scalar trivial) _ _).of_suffix (List.suffix_cons _ _)
    · exact ((reads_readNumber true rest).map fun _ => IsBounded.scalar).of_suffix (List.suffix_cons _ _)
    · have hstring : ∀ str : String, True → IsBounded room size (.scalar (.string str)) := fun _ _ => .scalar trivial
      exact ((reads_readString rest).map hstring).of_suffix (List.suffix_cons _ _)
    · refine Reads.of_suffix (u := rest) ?_ (List.suffix_cons _ _)
      cases room with
      | zero => exact .error _
      | succ room =>
        have hinner : ∀ s', s' <:+ rest → Reads (IsBounded room size) s' (readValue room s') := fun s' hs' =>
          reads_readValue room s' (hs'.length_le.trans hlen)
        refine (reads_readItems _ true rest hinner).map fun ds hds => ?_
        exact ⟨.list fun d hd => (hds.1 d hd).1,
          .list ((Nat.le_of_lt_succ hds.2).trans hlen) fun d hd => (hds.1 d hd).2⟩
    · refine Reads.of_suffix (u := rest) ?_ (List.suffix_cons _ _)
      cases room with
      | zero => exact .error _
      | succ room =>
        have hinner : ∀ s', s' <:+ rest → Reads (IsBounded room size) s' (readValue room s') := fun s' hs' =>
          reads_readValue room s' (hs'.length_le.trans hlen)
        refine (reads_readMembers _ true rest hinner).map fun ms hms => ?_
        exact ⟨.dict fun m hm => (hms m hm).1, .dict (fun _ _ => trivial) fun m hm => (hms m hm).2⟩
    · split
      · exact (reads_readNumber false _).map fun _ => IsBounded.scalar
      · exact .error _

/-- **A document that was read is bounded** by what the reader goes through and by the octets of the input. -/
theorem isBounded_of_parse_ok {input : List UInt8} {d : Document Scalar} (h : parse input = .ok d) :
    IsBounded maxNesting input.length d := by
  obtain ⟨⟨d', rest⟩, hread, h⟩ := bind_eq_ok.1 h
  dsimp only at h
  split at h
  · cases h
    exact (reads_readValue maxNesting input (Nat.le_refl _) _ _ hread).1
  · cases h

end Json
end Interchange
