import Interchange.Proofs.Xml.Scanning
/-!
# Parsed — what a node that was read is sure to be

Scanning gives names that are names and characters that are legal, and building keeps them: every name of a node that was
read has a base without a colon, every binding in scope has a label of its own and a namespace of its own, and every text
is legal (`Node.isParsed_of_ofMarkup?`).  Values of attributes are not checked where an entity stands for them.
-/
namespace Interchange
namespace Xml

/-! ## Names -/

/-- **A name without a colon.** -/
def isNCName (s : String) : Bool := s.toList.head?.any isNameStart && s.toList.all fun c => isNameChar c && c != ':'

theorem ne_empty_of_isNCName {s : String} (hs : isNCName s = true) : s ≠ "" := by
  rintro rfl
  cases hs

/-- A name that was scanned: a base, behind a label or not. -/
structure QName.IsProper (q : QName) : Prop where
  base : isNCName q.base = true
  label : q.label = "" ∨ isNCName q.label = true

namespace Scan

/-- **How a name was split**: at its first colon, if there is one, and there is none behind it. -/
theorem split_of_qname? {cs rest : List Char} {q : QName} (h : qname? cs = some (q, rest)) :
    ∃ label base, q = ⟨String.ofList label, String.ofList base⟩ ∧
      (∀ c ∈ label ++ base, isNameChar c = true ∧ c ≠ ':') ∧ label.head?.all isNameStart = true ∧
      base.head?.any isNameStart = true := by
  rw [qname?, List.span_eq_takeWhile_dropWhile] at h
  have hchars : ∀ c ∈ cs.takeWhile isNameChar, isNameChar c = true := fun c hc => List.mem_takeWhile_imp hc
  generalize cs.takeWhile isNameChar = found at h hchars
  dsimp only at h
  rw [List.span_eq_takeWhile_dropWhile] at h
  have hbefore : ∀ c ∈ found.takeWhile (· != ':'), c ≠ ':' := fun c hc => by simpa using List.mem_takeWhile_imp hc
  have happend := List.takeWhile_append_dropWhile (p := (· != ':')) (l := found)
  generalize found.takeWhile (· != ':') = label at h hbefore happend
  cases hbase : found.dropWhile (· != ':') with
  | nil =>
    rw [hbase] at h happend
    rw [List.append_nil] at happend
    subst happend
    dsimp only at h
    split at h
    · cases h
    · rename_i hc
      cases h
      simp only [Bool.or_eq_true, not_or, Bool.not_eq_true, Bool.not_eq_true', Bool.not_eq_false] at hc
      refine ⟨[], label, rfl, fun c hc => ⟨hchars c hc, hbefore c hc⟩, hc.1.2, hc.2⟩
  | cons c base =>
    rw [hbase] at h happend
    dsimp only at h
    split at h
    · cases h
    · rename_i hc
      cases h
      simp only [Bool.or_eq_true, not_or, Bool.not_eq_true, Bool.not_eq_true', Bool.not_eq_false] at hc
      obtain ⟨⟨hcolon, hlabel⟩, hbase⟩ := hc
      refine ⟨label, base, rfl, fun d hd => ?_, hlabel, hbase⟩
      rcases List.mem_append.1 hd with hd | hd
      · exact ⟨hchars d (happend ▸ List.mem_append_left _ hd), hbefore d hd⟩
      · refine ⟨hchars d (happend ▸ List.mem_append_right _ (List.mem_cons_of_mem _ hd)), ?_⟩
        rintro rfl
        simp [hd] at hcolon

theorem isNCName_ofList {cs : List Char} (hhead : cs.head?.any isNameStart = true)
    (hcs : ∀ c ∈ cs, isNameChar c = true ∧ c ≠ ':') : isNCName (String.ofList cs) = true := by
  rw [isNCName, String.toList_ofList, hhead, Bool.true_and, List.all_eq_true]
  intro c hc
  simp [hcs c hc]

theorem isProper_of_qname? {cs rest : List Char} {q : QName} (h : qname? cs = some (q, rest)) : q.IsProper := by
  obtain ⟨label, base, rfl, hchars, hlabel, hbase⟩ := split_of_qname? h
  refine ⟨isNCName_ofList hbase fun c hc => hchars c (List.mem_append_right _ hc), ?_⟩
  cases label with
  | nil => exact .inl rfl
  | cons c cs => exact .inr (isNCName_ofList hlabel fun d hd => hchars d (List.mem_append_left _ hd))

/-! ## Tokens -/

theorem isLegal_of_charsUntil {stop : List Char → Bool} : ∀ {cs found rest : List Char},
    charsUntil stop cs = some (found, rest) → isLegal found = true
  | [], _, _, h => by cases h; rfl
  | c :: cs, found, rest, h => by
    rw [charsUntil] at h
    split at h
    · cases h
    · rename_i hc
      split at h
      · cases h; rfl
      · obtain ⟨⟨found', rest'⟩, hfound, h⟩ := Option.map_eq_some_iff.1 h
        cases h
        rw [isLegal, List.all_cons, ← isLegal, isLegal_of_charsUntil hfound]
        simpa using hc

theorem isProper_of_attribute? {cs rest : List Char} {a : QName × List Char} (h : attribute? cs = some (a, rest)) :
    a.1.IsProper := by
  simp only [attribute?, Option.bind_eq_bind, Option.bind_eq_some_iff] at h
  obtain ⟨⟨name, cs'⟩, hname, cs'', -, ⟨value, cs'''⟩, -, h⟩ := h
  cases h
  exact isProper_of_qname? hname

theorem isProper_of_tagRest? {fuel : Nat} {cs rest : List Char} {as : List (QName × List Char)} {ending : TagEnd}
    (h : tagRest? fuel cs = some ((as, ending), rest)) : ∀ a ∈ as, a.1.IsProper := by
  have hnone : ∀ a ∈ ([] : List (QName × List Char)), a.1.IsProper := List.forall_mem_nil _
  induction fuel generalizing cs rest as ending with
  | zero => cases h
  | succ fuel ih =>
    cases cs with
    | nil => cases h; exact hnone
    | cons c cs =>
      rw [tagRest?] at h
      split at h
      · cases h; exact hnone
      · cases h; exact hnone
      · split at h
        · cases h
        · simp only [Option.bind_eq_bind, Option.bind_eq_some_iff] at h
          obtain ⟨⟨a, cs'⟩, ha, ⟨⟨as', ending'⟩, cs''⟩, has, h⟩ := h
          cases h
          exact List.forall_mem_cons.2 ⟨isProper_of_attribute? ha, ih has⟩
      · intro hcons; cases hcons

theorem isProper_of_startTag? {cs rest : List Char} {name : QName} {as : List (QName × List Char)} {ending : TagEnd}
    (h : startTag? cs = some ((name, as, ending), rest)) : name.IsProper ∧ ∀ a ∈ as, a.1.IsProper := by
  simp only [startTag?, Option.bind_eq_bind, Option.bind_eq_some_iff] at h
  obtain ⟨cs', -, ⟨name', cs''⟩, hname, ⟨⟨as', ending'⟩, cs'''⟩, has, h⟩ := h
  cases h
  exact ⟨isProper_of_qname? hname, isProper_of_tagRest? has⟩

theorem isLegal_of_text? {cs raw rest : List Char} (h : text? cs = some (raw, rest)) : isLegal raw = true := by
  simp only [text?, Option.bind_eq_bind, Option.bind_eq_some_iff] at h
  obtain ⟨⟨raw', rest'⟩, hraw, h⟩ := h
  split at h
  · cases h
  · cases h; exact isLegal_of_charsUntil hraw

theorem isLegal_of_cdata? {cs raw rest : List Char} (h : cdata? cs = some (raw, rest)) : isLegal raw = true := by
  simp only [cdata?, Option.bind_eq_bind, Option.bind_eq_some_iff] at h
  obtain ⟨cs', -, ⟨raw', rest'⟩, hraw, cs'', -, h⟩ := h
  cases h
  exact isLegal_of_charsUntil hraw

end Scan

/-- **A token with names that are names and characters that are legal.** -/
def Token.IsProper : Token → Prop
  | start name attributes _ => name.IsProper ∧ ∀ a ∈ attributes, a.1.IsProper
  | finish _ => True
  | text raw => isLegal raw = true
  | cdata raw => isLegal raw = true

namespace Scan

/-- **Content is scanned into proper tokens.** -/
theorem isProper_of_content : ∀ {fuel depth : Nat} {cs rest : List Char} {ts : List Token},
    content fuel depth cs = some (ts, rest) → ∀ t ∈ ts, t.IsProper
  | 0, _, _, _, _, h => by cases h; exact nofun
  | fuel + 1, 0, _, _, _, h => by cases h; exact nofun
  | fuel + 1, depth + 1, [], _, _, h => by cases h; exact nofun
  | fuel + 1, depth + 1, c :: cs, rest, ts, h => by
    have hmore : ∀ (found : List Token) {depth : Nat} {cs : List Char}, (∀ t ∈ found, t.IsProper) →
        ((content fuel depth cs).map fun r => (found ++ r.1, r.2)) = some (ts, rest) → ∀ t ∈ ts, t.IsProper := by
      intro found depth cs hfound h
      obtain ⟨⟨ts', rest'⟩, hts, h⟩ := Option.map_eq_some_iff.1 h
      cases h
      exact List.forall_mem_append.2 ⟨hfound, isProper_of_content hts⟩
    unfold content at h
    dsimp only at h
    split at h
    · split at h
      · obtain ⟨cs', -, h⟩ := Option.bind_eq_some_iff.1 h
        exact hmore [] (fun _ ht => nomatch ht) h
      · obtain ⟨⟨raw, cs'⟩, hraw, h⟩ := Option.bind_eq_some_iff.1 h
        exact hmore [.cdata raw] (List.forall_mem_singleton.2 (isLegal_of_cdata? hraw)) h
    · obtain ⟨cs', -, h⟩ := Option.bind_eq_some_iff.1 h
      exact hmore [] (fun _ ht => nomatch ht) h
    · obtain ⟨⟨name, cs'⟩, -, h⟩ := Option.bind_eq_some_iff.1 h
      exact hmore [.finish name] (List.forall_mem_singleton.2 trivial) h
    · obtain ⟨⟨⟨name, as, ending⟩, cs'⟩, hstart, h⟩ := Option.bind_eq_some_iff.1 h
      exact hmore [.start name as ending] (List.forall_mem_singleton.2 (isProper_of_startTag? hstart)) h
    · obtain ⟨⟨raw, cs'⟩, hraw, h⟩ := Option.bind_eq_some_iff.1 h
      exact hmore [.text raw] (List.forall_mem_singleton.2 (isLegal_of_text? hraw)) h

theorem isProper_of_rootContent {cs rest : List Char} {ts : List Token} (h : rootContent cs = some (ts, rest)) :
    ∀ t ∈ ts, t.IsProper := by
  unfold rootContent at h
  split at h
  · simp only [Option.bind_eq_bind, Option.bind_eq_some_iff] at h
    obtain ⟨⟨⟨name, as, ending⟩, cs'⟩, hstart, ⟨ts', cs''⟩, hts, h⟩ := h
    cases h
    exact List.forall_mem_cons.2 ⟨isProper_of_startTag? hstart, isProper_of_content hts⟩
  · cases h; exact nofun

end Scan

theorem Markup.isProper_of_ofText? {cs : List Char} {m : Markup} (h : ofText? cs = some m) : ∀ t ∈ m.tokens, t.IsProper := by
  have hroot : ∀ {entities : List Entity} {cs : List Char}, ((Scan.misc (cs.length + 1) cs).bind fun cs =>
      (Scan.rootContent cs).bind fun r => (Scan.misc (r.2.length + 1) r.2).bind fun cs =>
        if cs.isEmpty then some ⟨entities, r.1⟩ else none) = some m → ∀ t ∈ m.tokens, t.IsProper := by
    intro entities cs h
    obtain ⟨cs1, -, h⟩ := Option.bind_eq_some_iff.1 h
    obtain ⟨⟨tokens, cs2⟩, htokens, h⟩ := Option.bind_eq_some_iff.1 h
    obtain ⟨cs3, -, h⟩ := Option.bind_eq_some_iff.1 h
    split at h
    · cases h; exact Scan.isProper_of_rootContent htokens
    · cases h
  have htype : ∀ {cs : List Char}, ((Scan.misc (cs.length + 1) cs).bind fun cs =>
      if startsWith "<!DOCTYPE".toList cs then (Scan.docType? cs).bind fun d =>
        (Scan.misc (d.2.length + 1) d.2).bind fun cs => (Scan.rootContent cs).bind fun r =>
          (Scan.misc (r.2.length + 1) r.2).bind fun cs => if cs.isEmpty then some ⟨d.1, r.1⟩ else none
      else (Scan.misc (cs.length + 1) cs).bind fun cs => (Scan.rootContent cs).bind fun r =>
        (Scan.misc (r.2.length + 1) r.2).bind fun cs => if cs.isEmpty then some ⟨[], r.1⟩ else none) = some m →
      ∀ t ∈ m.tokens, t.IsProper := by
    intro cs h
    obtain ⟨cs1, -, h⟩ := Option.bind_eq_some_iff.1 h
    split at h
    · obtain ⟨d, -, h⟩ := Option.bind_eq_some_iff.1 h
      exact hroot h
    · exact hroot h
  unfold ofText? at h
  dsimp only at h
  split at h
  · obtain ⟨cs1, -, h⟩ := Option.bind_eq_some_iff.1 h
    exact htype h
  · exact htype h

theorem Token.isProper_of_ofEntity? {cs : List Char} {ts : List Token} (h : ofEntity? cs = some ts) :
    ∀ t ∈ ts, t.IsProper := by
  obtain ⟨⟨ts', rest⟩, hts, rfl⟩ := Option.map_eq_some_iff.1 h
  exact Scan.isProper_of_content hts

/-! ## Character data -/

theorem isCharacter_of_predefined? {name : List Char} {c : Char} (h : Reference.predefined? name = some c) :
    isCharacter c = true := by
  unfold Reference.predefined? at h
  split at h <;> cases h <;> decide

theorem isCharacter_ofCode (n : Nat) : isCharacter (Reference.ofCode n) = true := by
  rw [Reference.ofCode]
  split
  · rename_i hn
    exact (Bool.and_eq_true_iff.1 hn).2
  · decide

theorem isLegal_cons {c : Char} {cs : List Char} : isLegal (c :: cs) = true ↔ isCharacter c = true ∧ isLegal cs = true := by
  rw [isLegal, List.all_cons, Bool.and_eq_true, isLegal]

theorem isLegal_of_suffix {cs ds : List Char} (h : ds <:+ cs) (hcs : isLegal cs = true) : isLegal ds = true :=
  List.all_eq_true.2 fun c hc => List.all_eq_true.1 hcs c (h.subset hc)

theorem suffix_of_strip? {word cs rest : List Char} (h : strip? word cs = some rest) : rest <:+ cs :=
  ⟨word, (eq_append_of_strip? h).symm⟩

theorem of_code? {radix : Nat} {cs rest : List Char} {r : Reference} (h : Reference.code? radix cs = some (r, rest)) :
    rest <:+ cs ∧ ∀ c, r = .char c → isCharacter c = true := by
  rw [Reference.code?, List.span_eq_takeWhile_dropWhile] at h
  simp only [Option.bind_eq_bind, Option.bind_eq_some_iff] at h
  obtain ⟨n, -, cs', hstrip, h⟩ := h
  split at h
  · cases h
    refine ⟨(suffix_of_strip? hstrip).trans (List.dropWhile_suffix _), fun c hc => ?_⟩
    cases hc
    exact isCharacter_ofCode n
  · cases h

/-- **A character that a reference stands for is legal**, and what is behind the reference is the end of the text. -/
theorem of_scan? {cs rest : List Char} {r : Reference} (h : Reference.scan? cs = some (r, rest)) :
    rest <:+ cs ∧ ∀ c, r = .char c → isCharacter c = true := by
  unfold Reference.scan? at h
  split at h
  · obtain ⟨hrest, hr⟩ := of_code? h
    exact ⟨(hrest.trans (List.suffix_cons _ _)).trans (List.suffix_cons _ _), hr⟩
  · obtain ⟨hrest, hr⟩ := of_code? h
    exact ⟨hrest.trans (List.suffix_cons _ _), hr⟩
  · simp only [Option.bind_eq_bind, Option.bind_eq_some_iff] at h
    obtain ⟨⟨name, cs'⟩, hname, cs'', hstrip, h⟩ := h
    have hrest : cs' <:+ cs := by
      unfold Scan.name? at hname
      split at hname
      · cases hname
      · split at hname
        · rw [List.span_eq_takeWhile_dropWhile] at hname
          cases hname
          exact (List.dropWhile_suffix _).trans (List.suffix_cons _ _)
        · cases hname
    split at h
    · rename_i c hc
      cases h
      refine ⟨(suffix_of_strip? hstrip).trans hrest, fun d hd => ?_⟩
      cases hd
      exact isCharacter_of_predefined? hc
    · cases h
      exact ⟨(suffix_of_strip? hstrip).trans hrest, nofun⟩

theorem isLegal_pushData {c : Char} (hc : isCharacter c = true) (atEnd : Bool) {before : List Char}
    (hbefore : isLegal before = true) : isLegal (pushData c atEnd before) = true := by
  have hline : isCharacter '\n' = true := by decide
  unfold pushData
  split
  · rw [isLegal_cons] at hbefore
    split
    · exact isLegal_cons.2 ⟨hline, isLegal_cons.2 ⟨hline, hbefore.2⟩⟩
    · split
      · exact isLegal_cons.2 ⟨hline, hbefore.2⟩
      · exact isLegal_cons.2 ⟨hc, isLegal_cons.2 ⟨hline, hbefore.2⟩⟩
  · split
    · exact isLegal_cons.2 ⟨hline, hbefore⟩
    · exact isLegal_cons.2 ⟨hc, hbefore⟩

theorem isLegal_cdataChars {raw : List Char} (hraw : isLegal raw = true) : isLegal (cdataChars raw) = true := by
  have hall : ∀ {cs before : List Char}, isLegal cs = true → isLegal before = true →
      isLegal (pushAll cs before) = true := by
    intro cs
    induction cs with
    | nil => exact fun _ hbefore => hbefore
    | cons c cs ih =>
      intro before hcs hbefore
      rw [isLegal_cons] at hcs
      exact ih hcs.2 (isLegal_pushData hcs.1 _ hbefore)
  rw [cdataChars, isLegal, List.all_reverse]
  exact hall hraw rfl

/-- **Pieces of legal characters are legal.** -/
theorem isLegal_of_piecesFrom {inDocument : Bool} : ∀ {fuel : Nat} {before cs : List Char} {keepNext : Bool}
    {ps : List Piece}, isLegal before = true → isLegal cs = true → piecesFrom inDocument fuel before keepNext cs = some ps →
      ∀ raw, .chars raw ∈ ps → isLegal raw = true
  | 0, before, cs, _, _, hbefore, _, h, raw, hraw => by
    cases h
    cases List.mem_singleton.1 hraw
    rwa [isLegal, List.all_reverse]
  | fuel + 1, before, [], _, _, hbefore, _, h, raw, hraw => by
    cases h
    cases List.mem_singleton.1 hraw
    rwa [isLegal, List.all_reverse]
  | fuel + 1, before, c :: cs, keepNext, ps, hbefore, hcs, h, raw, hraw => by
    rw [isLegal_cons] at hcs
    rw [piecesFrom] at h
    split at h
    · refine isLegal_of_piecesFrom ?_ hcs.2 h raw hraw
      split
      · exact isLegal_cons.2 ⟨hcs.1, hbefore⟩
      · exact isLegal_pushData hcs.1 _ hbefore
    · obtain ⟨⟨r, rest⟩, hscan, h⟩ := Option.bind_eq_some_iff.1 h
      obtain ⟨hrest, hr⟩ := of_scan? hscan
      have hrest := isLegal_of_suffix hrest hcs.2
      cases r with
      | char d =>
        have hd := hr d rfl
        dsimp only at h
        split at h
        · exact isLegal_of_piecesFrom (isLegal_cons.2 ⟨hd, hbefore⟩) hrest h raw hraw
        · exact isLegal_of_piecesFrom (isLegal_pushData hd _ hbefore) hrest h raw hraw
      | entity name =>
        obtain ⟨ps', hps, h⟩ := Option.bind_eq_some_iff.1 h
        cases h
        rcases List.mem_cons.1 hraw with hraw | hraw
        · cases hraw
          rwa [isLegal, List.all_reverse]
        · rcases List.mem_cons.1 hraw with hraw | hraw
          · cases hraw
          · exact isLegal_of_piecesFrom rfl hrest hps raw hraw

/-! ## Tags -/

/-- **A binding with a label and a namespace of its own**: neither is one of those that are fixed. -/
structure Binding.IsProper (b : Binding) : Prop where
  label : ∀ l ∈ b.label, isNCName l = true ∧ l ≠ "xml"
  uri : b.uri ≠ xmlUri ∧ b.uri ≠ xmlnsUri

structure TagData.IsProper (t : TagData) : Prop where
  own : ∀ b ∈ t.own, b.IsProper
  attributes : ∀ a ∈ t.attributes, isNCName a.1.base = true ∧ a.1.base ≠ "xmlns"

theorem TagData.isProper_empty : TagData.empty.IsProper := ⟨nofun, nofun⟩

theorem TagData.IsProper.add? {t t' : TagData} (ht : t.IsProper) {name : QName} (hname : name.IsProper) {value : String}
    (h : t.add? name value = some t') : t'.IsProper := by
  unfold TagData.add? at h
  split at h
  · split at h
    · cases h
    · rename_i hfixed
      rw [not_or, not_or, not_and, not_and, not_not] at hfixed
      split at h
      · cases h
      · split at h
        · cases h; exact ht
        · rename_i huri
          cases h
          refine ⟨List.forall_mem_append.2 ⟨ht.own, List.forall_mem_singleton.2 ⟨?_, huri, hfixed.1⟩⟩, ht.attributes⟩
          rintro l ⟨⟩
          exact ⟨hname.base, fun hxml => huri (hfixed.2.1 hxml)⟩
  · split at h
    · split at h
      · cases h
      · rename_i huri
        rw [not_or] at huri
        cases h
        exact ⟨List.forall_mem_append.2 ⟨ht.own, List.forall_mem_singleton.2 ⟨nofun, huri⟩⟩, ht.attributes⟩
    · rename_i hbase
      cases h
      exact ⟨ht.own, List.forall_mem_append.2 ⟨ht.attributes, List.forall_mem_singleton.2 ⟨hname.base, hbase⟩⟩⟩

theorem Build.isProper_of_tagData? {entities : List Entity} {levels : Nat} :
    ∀ {as : List (QName × List Char)} {t t' : TagData} {n n' : Nat}, (∀ a ∈ as, a.1.IsProper) → t.IsProper →
      tagData? entities levels as t n = some (t', n') → t'.IsProper
  | [], _, _, _, _, _, ht, h => by cases h; exact ht
  | (name, raw) :: as, t, t', n, n', has, ht, h => by
    simp only [tagData?, Option.bind_eq_bind, Option.bind_eq_some_iff] at h
    obtain ⟨⟨value, n''⟩, -, t'', hadd, h⟩ := h
    rw [List.forall_mem_cons] at has
    exact isProper_of_tagData? has.2 (ht.add? has.1 hadd) h

theorem base_of_resolve? {scope : Scope} {name : QName} {e : ExpandedName} (h : scope.resolve? name = some e) :
    e.base = name.base := by
  unfold Scope.resolve? at h
  split at h
  · cases h; rfl
  · obtain ⟨b, -, rfl⟩ := Option.map_eq_some_iff.1 h
    rfl

theorem base_of_resolveAttribute? {scope : Scope} {name : QName} {e : ExpandedName}
    (h : scope.resolveAttribute? name = some e) : e.base = name.base := by
  unfold Scope.resolveAttribute? at h
  split at h
  · cases h; rfl
  · split at h
    · cases h; rfl
    · exact base_of_resolve? h

theorem forall_of_resolveAttributes? {P : String → Prop} {scope : Scope} : ∀ {as : List (QName × String)}
    {done resolved : List (ExpandedName × String)}, (∀ a ∈ as, P a.1.base) → (∀ a ∈ done, P a.1.base) →
      resolveAttributes? scope done as = some resolved → ∀ a ∈ resolved, P a.1.base
  | [], _, _, _, hdone, h => by cases h; exact hdone
  | (name, value) :: as, done, resolved, has, hdone, h => by
    rw [resolveAttributes?] at h
    obtain ⟨e, he, h⟩ := Option.bind_eq_some_iff.1 h
    rw [List.forall_mem_cons] at has
    split at h
    · cases h
    · refine forall_of_resolveAttributes? has.2 (List.forall_mem_append.2 ⟨hdone, List.forall_mem_singleton.2 ?_⟩) h
      rw [base_of_resolveAttribute? he]
      exact has.1

/-! ## Scopes -/

namespace Scope

variable {own outer : Scope} {b : Binding}

theorem mem_of_mem_inherited : ∀ {scope outer : Scope}, b ∈ scope.inherited outer → b ∈ outer
  | scope, d :: outer, hb => by
    rw [inherited] at hb
    split at hb
    · exact List.mem_cons_of_mem _ (mem_of_mem_inherited hb)
    · rcases List.mem_cons.1 hb with rfl | hb
      · exact List.mem_cons_self
      · exact List.mem_cons_of_mem _ (mem_of_mem_inherited hb)

/-- **A declared scope** is its own bindings and then outer ones. -/
theorem exists_declare_eq (own outer : Scope) : ∃ more, own.declare outer = own ++ more ∧ ∀ b ∈ more, b ∈ outer := by
  rw [declare]
  cases own with
  | nil => exact ⟨outer, rfl, fun _ hb => hb⟩
  | cons d own => exact ⟨_, rfl, fun _ hb => mem_of_mem_inherited hb⟩

theorem mem_or_mem_of_mem_declare (hb : b ∈ own.declare outer) : b ∈ own ∨ b ∈ outer := by
  obtain ⟨more, heq, hmore⟩ := exists_declare_eq own outer
  rw [heq, List.mem_append] at hb
  exact hb.imp_right (hmore b)

end Scope

/-! ## Nodes -/

/-- **A node that was read**: its names have bases without a colon, none of an attribute being that of a declaration, its
bindings are proper, its text is legal, and so with all nodes inside it. -/
inductive Node.IsParsed : Node → Prop where
  | mk {name : ExpandedName} {attributes : List (ExpandedName × String)} {scope : Scope} {text : List Char}
    {children : List Node} (hname : isNCName name.base = true)
    (hattributes : ∀ a ∈ attributes, isNCName a.1.base = true ∧ a.1.base ≠ "xmlns") (hscope : ∀ b ∈ scope, b.IsProper)
    (htext : isLegal text = true) (hchildren : ∀ n ∈ children, IsParsed n) :
    IsParsed (.mk name attributes scope text children)

namespace Build

/-- **What is built of proper tokens**: open elements and the outermost one as they are read, and a proper tag. -/
structure IsParsed (b : Build) : Prop where
  frames : ∀ f ∈ b.frames, f.node.IsParsed
  root : ∀ n ∈ b.root, n.IsParsed
  pending : b.pending.IsProper

variable {b b' : Build}

theorem IsParsed.scope (hb : b.IsParsed) : ∀ d ∈ b.scope, d.IsProper := by
  unfold Build.scope
  split
  · exact nofun
  · rename_i f fs hf
    have hnode := hb.frames f (by rw [hf]; exact List.mem_cons_self)
    cases hnode with
    | mk _ _ hscope _ _ => exact hscope

theorem IsParsed.attach (hb : b.IsParsed) {n : Node} (hn : n.IsParsed) : (b.attach n).IsParsed := by
  unfold Build.attach
  split
  · refine ⟨hb.frames, fun m hm => ?_, hb.pending⟩
    cases hroot : b.root with
    | none => rw [hroot] at hm; cases hm; exact hn
    | some m' => rw [hroot] at hm; cases hm; exact hb.root _ hroot
  · rename_i f fs hf
    have hframes := hb.frames
    rw [hf, List.forall_mem_cons] at hframes
    refine ⟨List.forall_mem_cons.2 ⟨?_, hframes.2⟩, hb.root, hb.pending⟩
    obtain ⟨hnode, -⟩ := hframes
    cases hnode with
    | mk hname hattributes hscope htext hchildren =>
      refine .mk hname hattributes hscope htext fun m hm => ?_
      rw [List.mem_reverse, List.mem_cons] at hm
      rcases hm with rfl | hm
      · exact hn
      · exact hchildren m (List.mem_reverse.2 hm)

theorem IsParsed.addText (hb : b.IsParsed) {cs : List Char} (hcs : isLegal cs = true) : (b.addText cs).IsParsed := by
  unfold Build.addText
  split
  · exact hb
  · rename_i f fs hf
    have hframes := hb.frames
    rw [hf, List.forall_mem_cons] at hframes
    refine ⟨List.forall_mem_cons.2 ⟨?_, hframes.2⟩, hb.root, hb.pending⟩
    obtain ⟨hnode, -⟩ := hframes
    cases hnode with
    | mk hname hattributes hscope htext hchildren =>
      refine .mk hname hattributes hscope ?_ hchildren
      rw [isLegal, List.all_append, ← isLegal, ← isLegal, htext, hcs]
      rfl

theorem IsParsed.frame? (hb : b.IsParsed) {name : QName} (hname : name.IsProper) {t : TagData} (ht : t.IsProper)
    {f : Frame} (h : b.frame? name t = some f) : f.node.IsParsed := by
  simp only [Build.frame?, Option.bind_eq_bind, Option.bind_eq_some_iff] at h
  obtain ⟨attributes, hattributes, resolved, hresolved, h⟩ := h
  cases h
  refine .mk ?_ ?_ ?_ rfl nofun
  · rw [base_of_resolve? hresolved]
    exact hname.base
  · exact forall_of_resolveAttributes? (P := fun base => isNCName base = true ∧ base ≠ "xmlns") ht.attributes
      (List.forall_mem_nil _) hattributes
  · intro d hd
    rcases Scope.mem_or_mem_of_mem_declare hd with hd | hd
    · exact ht.own d hd
    · exact hb.scope d hd

theorem IsParsed.open? (hb : b.IsParsed) {entities : List Entity} {levels : Nat} {name : QName}
    {as : List (QName × List Char)} {ending : TagEnd} (hname : name.IsProper) (has : ∀ a ∈ as, a.1.IsProper)
    (h : b.open? entities levels name as ending = some b') : b'.IsParsed := by
  unfold Build.open? at h
  split at h
  · cases h
  · obtain ⟨⟨t, n⟩, ht, h⟩ := Option.bind_eq_some_iff.1 h
    have ht := isProper_of_tagData? has hb.pending ht
    cases ending with
    | missing => cases h; exact ⟨hb.frames, hb.root, ht⟩
    | empty =>
      obtain ⟨f, hf, h⟩ := Option.bind_eq_some_iff.1 h
      cases h
      have hb' : IsParsed { b with pending := .empty, references := n } := ⟨hb.frames, hb.root, TagData.isProper_empty⟩
      exact hb'.attach (hb.frame? hname ht hf)
    | opening =>
      obtain ⟨f, hf, h⟩ := Option.bind_eq_some_iff.1 h
      cases h
      exact ⟨List.forall_mem_cons.2 ⟨hb.frame? hname ht hf, hb.frames⟩, hb.root, TagData.isProper_empty⟩

theorem IsParsed.close? (hb : b.IsParsed) {name : QName} (h : b.close? name = some b') : b'.IsParsed := by
  unfold Build.close? at h
  split at h
  · cases h; exact hb
  · rename_i f fs hf
    have hframes := hb.frames
    rw [hf, List.forall_mem_cons] at hframes
    split at h
    · cases h
      have hb' : IsParsed { b with frames := fs } := ⟨hframes.2, hb.root, hb.pending⟩
      exact hb'.attach hframes.1
    · cases h

/-! ## Runs -/

/-- **A property that building keeps**, whatever proper token comes next, and however references are counted. -/
structure IsKept (P : Build → Prop) : Prop where
  addText : ∀ {b : Build} {cs : List Char}, P b → isLegal cs = true → P (b.addText cs)
  open? : ∀ {b b' : Build} {entities : List Entity} {levels : Nat} {name : QName} {as : List (QName × List Char)}
    {ending : TagEnd}, P b → name.IsProper → (∀ a ∈ as, a.1.IsProper) → b.open? entities levels name as ending = some b' → P b'
  close? : ∀ {b b' : Build} {name : QName}, P b → b.close? name = some b' → P b'
  references : ∀ {b : Build} (n : Nat), P b → P { b with references := n }

variable {P : Build → Prop} {expand : String → Build → Option Build}

theorem IsKept.addPieces (hP : IsKept P) (hexpand : ∀ name b b', P b → expand name b = some b' → P b') :
    ∀ {ps : List Piece} {b b' : Build}, P b → (∀ raw, .chars raw ∈ ps → isLegal raw = true) →
      addPieces expand ps b = some b' → P b'
  | [], _, _, hb, _, h => by cases h; exact hb
  | .chars cs :: ps, b, b', hb, hps, h =>
    hP.addPieces hexpand (hP.addText hb (hps cs List.mem_cons_self)) (fun raw hr => hps raw (List.mem_cons_of_mem _ hr)) h
  | .entity name :: ps, b, b', hb, hps, h => by
    obtain ⟨b'', hb'', h⟩ := Option.bind_eq_some_iff.1 h
    exact hP.addPieces hexpand (hexpand name b b'' hb hb'') (fun raw hr => hps raw (List.mem_cons_of_mem _ hr)) h

theorem IsKept.step (hP : IsKept P) (hexpand : ∀ name b b', P b → expand name b = some b' → P b')
    {entities : List Entity} {levels : Nat} (hb : P b) {t : Token} (ht : t.IsProper)
    (h : b.step entities levels expand t = some b') : P b' := by
  cases t with
  | start name as ending => exact hP.open? hb ht.1 ht.2 h
  | finish name => exact hP.close? hb h
  | cdata raw => cases h; exact hP.addText hb (isLegal_cdataChars ht)
  | text raw =>
    obtain ⟨ps, hps, h⟩ := Option.bind_eq_some_iff.1 h
    exact hP.addPieces hexpand hb (isLegal_of_piecesFrom rfl ht hps) h

theorem foldlM_keeps {f : Build → Token → Option Build} (hf : ∀ b t b', P b → t.IsProper → f b t = some b' → P b') :
    ∀ {ts : List Token} {b b' : Build}, P b → (∀ t ∈ ts, t.IsProper) → ts.foldlM f b = some b' → P b'
  | [], _, _, hb, _, h => by cases h; exact hb
  | t :: ts, b, b', hb, hts, h => by
    rw [List.foldlM_cons] at h
    obtain ⟨b'', hb'', h⟩ := Option.bind_eq_some_iff.1 h
    rw [List.forall_mem_cons] at hts
    exact foldlM_keeps hf (hf b t b'' hb hts.1 hb'') hts.2 h

/-- **Tokens keep it**, with the entities that they refer to. -/
theorem IsKept.run (hP : IsKept P) {entities : List Entity} : ∀ {levels : Nat} {ts : List Token} {b b' : Build}, P b →
    (∀ t ∈ ts, t.IsProper) → run entities levels ts b = some b' → P b'
  | 0, _, _, _, hb, hts, h =>
    foldlM_keeps (fun _ _ _ hb ht h => hP.step (fun _ _ _ _ h => by cases h) hb ht h) hb hts h
  | levels + 1, ts, b, b', hb, hts, h => by
    refine foldlM_keeps (fun _ _ _ hb ht h => hP.step (fun name b b' hb h => ?_) hb ht h) hb hts h
    simp only [Option.bind_eq_bind, Option.bind_eq_some_iff] at h
    obtain ⟨text, -, n, -, ts', hts', h⟩ := h
    split at h
    · cases h
    · obtain ⟨b'', hb'', h⟩ := Option.bind_eq_some_iff.1 h
      cases h
      exact hP.references _ (hP.run (hP.references n hb) (Token.isProper_of_ofEntity? hts') hb'')

theorem isKept_isParsed : IsKept IsParsed where
  addText hb hcs := hb.addText hcs
  open? hb hname has h := hb.open? hname has h
  close? hb h := hb.close? h
  references _ hb := ⟨hb.frames, hb.root, hb.pending⟩

/-- **What building keeps is so where a document ends**, if it is so of nothing. -/
theorem IsKept.exists_of_ofMarkup? (hP : IsKept P) (hnew : P ⟨[], none, .empty, 0⟩) {cs : List Char} {n : Node}
    (h : (Markup.ofText? cs).bind Node.ofMarkup? = some n) : ∃ b, P b ∧ b.root = some n := by
  obtain ⟨m, hm, h⟩ := Option.bind_eq_some_iff.1 h
  obtain ⟨b, hb, h⟩ := Option.bind_eq_some_iff.1 h
  split at h
  · exact ⟨b, hP.run hnew (Markup.isProper_of_ofText? hm) hb, h⟩
  · cases h

end Build

/-- **A document that was scanned is read as a parsed node.** -/
theorem Node.isParsed_of_ofMarkup? {cs : List Char} {n : Node} (h : (Markup.ofText? cs).bind ofMarkup? = some n) :
    n.IsParsed := by
  obtain ⟨b, hb, hroot⟩ := Build.isKept_isParsed.exists_of_ofMarkup? ⟨nofun, nofun, TagData.isProper_empty⟩ h
  exact hb.root n hroot

end Xml
end Interchange
