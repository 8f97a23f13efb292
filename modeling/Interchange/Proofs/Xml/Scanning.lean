import Interchange.Xml.Codec
import Mathlib.Data.List.TakeDrop
import Mathlib.Data.List.TakeWhile
/-!
# Scanning — the tokens of a printed element

An element whose names are qualified names and whose characters are legal is scanned into one start tag and, unless it is
empty, into what is inside and one end tag.  What stands between two tags is one text, whether it comes from the element,
from a line end or from both.
-/
namespace Interchange
namespace Xml

/-! ## Names -/

/-- Whether a text is a qualified name. -/
def isQName (s : String) : Bool := (Scan.qname? s.toList).any (·.2.isEmpty)

/-- The qualified name that a text is. -/
def QName.ofString (s : String) : QName := ((Scan.qname? s.toList).map Prod.fst).getD ⟨"", s⟩

theorem span_append {p : Char → Bool} {cs : List Char} (hcs : ∀ c ∈ cs, p c = true) (rest : List Char)
    (hrest : rest.head?.any p = false) : (cs ++ rest).span p = (cs, rest) := by
  rw [List.span_eq_takeWhile_dropWhile, List.takeWhile_append_of_pos hcs, List.dropWhile_append_of_pos hcs]
  cases rest with
  | nil => simp
  | cons c rest =>
    have hc : p c = false := hrest
    rw [List.takeWhile_cons_of_neg (by simp [hc]), List.dropWhile_cons_of_neg (by simp [hc]), List.append_nil]

theorem snd_of_qname? {cs : List Char} {r : QName × List Char} (h : Scan.qname? cs = some r) :
    r.2 = cs.dropWhile isNameChar := by
  rw [Scan.qname?, List.span_eq_takeWhile_dropWhile] at h
  dsimp only at h
  split at h
  all_goals
    split at h
    · cases h
    · cases h
      rfl

theorem isNameChar_of_isQName {s : String} (hs : isQName s = true) : ∀ c ∈ s.toList, isNameChar c = true := by
  rw [isQName, Option.any_eq_true] at hs
  obtain ⟨r, hr, hempty⟩ := hs
  rw [snd_of_qname? hr, List.isEmpty_iff] at hempty
  exact List.dropWhile_eq_nil_iff.1 hempty

/-- **A qualified name is read whatever follows**, as long as it does not go on. -/
theorem qname?_append {s : String} (hs : isQName s = true) (rest : List Char)
    (hrest : rest.head?.any isNameChar = false) : Scan.qname? (s.toList ++ rest) = some (.ofString s, rest) := by
  have hchars := isNameChar_of_isQName hs
  have hspan := span_append hchars [] rfl
  rw [List.append_nil] at hspan
  have h : Scan.qname? (s.toList ++ rest) = (Scan.qname? s.toList).map fun r => (r.1, rest) := by
    rw [Scan.qname?, Scan.qname?, hspan, span_append hchars rest hrest]
    dsimp only
    split
    all_goals
      split <;> rfl
  rw [isQName, Option.any_eq_true] at hs
  obtain ⟨q, hq, -⟩ := hs
  rw [h, QName.ofString, hq]
  rfl

theorem exists_cons_of_isQName {s : String} (hs : isQName s = true) :
    ∃ c cs, s.toList = c :: cs ∧ isNameChar c = true := by
  cases hcs : s.toList with
  | nil => rw [isQName, hcs] at hs; exact absurd hs Bool.false_ne_true
  | cons c cs => exact ⟨c, cs, rfl, isNameChar_of_isQName hs c (by rw [hcs]; exact List.mem_cons_self)⟩

/-! ## Data -/

/-- Characters as data. -/
def escaped (cs : List Char) : List Char := cs.flatMap escapeChar

/-- Whether all characters of a text are legal. -/
def isLegal (cs : List Char) : Bool := cs.all isCharacter

theorem escaped_append (cs ds : List Char) : escaped (cs ++ ds) = escaped cs ++ escaped ds := List.flatMap_append

theorem escaped_ne_nil {cs : List Char} (hcs : cs ≠ []) : escaped cs ≠ [] := by
  obtain ⟨c, cs, rfl⟩ := List.exists_cons_of_ne_nil hcs
  have hc : escapeChar c ≠ [] := by
    unfold escapeChar
    split <;> exact List.cons_ne_nil _ _
  exact fun h => hc (List.append_eq_nil_iff.1 h).1

theorem of_mem_escapeChar {c d : Char} (hd : d ∈ escapeChar c) : d ≠ '<' ∧ d ≠ '>' ∧ d ≠ '"' ∧ d ≠ '\'' := by
  unfold escapeChar at hd
  split at hd
  case h_6 h1 h2 h3 h4 h5 =>
    cases List.mem_singleton.1 hd
    exact ⟨h2, h3, h4, h5⟩
  all_goals grind

theorem of_mem_escaped {cs : List Char} {d : Char} (hd : d ∈ escaped cs) : d ≠ '<' ∧ d ≠ '>' ∧ d ≠ '"' ∧ d ≠ '\'' := by
  obtain ⟨c, -, hd⟩ := List.mem_flatMap.1 hd
  exact of_mem_escapeChar hd

theorem isLegal_escaped (cs : List Char) : isLegal (escaped cs) = isLegal cs := by
  rw [isLegal, escaped, List.all_flatMap]
  refine congrArg cs.all (funext fun c => ?_)
  unfold escapeChar
  split
  case h_6 => exact Bool.and_true _
  all_goals decide

/-- **Characters are taken up to a place of a kind that is not among them**, if all of them are legal. -/
theorem charsUntil_append {stop : List Char → Bool} {rest : List Char} (hrest : rest.head?.all isCharacter = true)
    (hstop : rest ≠ [] → stop rest = true) : ∀ {cs : List Char}, (∀ c ∈ cs, ∀ ds, stop (c :: ds) = false) →
      Scan.charsUntil stop (cs ++ rest) = if isLegal cs then some (cs, rest) else none
  | [], _ => by
    cases rest with
    | nil => rfl
    | cons c rest =>
      have hc : isCharacter c = true := hrest
      rw [List.nil_append, Scan.charsUntil, hc, hstop (List.cons_ne_nil _ _)]
      rfl
  | c :: cs, hne => by
    have ih := charsUntil_append hrest hstop fun c hc => hne c (List.mem_cons_of_mem _ hc)
    rw [List.cons_append, Scan.charsUntil, hne c List.mem_cons_self, ih, isLegal, isLegal, List.all_cons]
    cases isCharacter c <;> cases cs.all isCharacter <;> rfl

theorem eq_append_of_strip? : ∀ {word cs rest : List Char}, strip? word cs = some rest → cs = word ++ rest
  | [], _, _, h => by cases h; rfl
  | _ :: _, [], _, h => by cases h
  | w :: ws, c :: cs, rest, h => by
    rw [strip?] at h
    split at h
    · rename_i hwc
      rw [eq_append_of_strip? h, hwc, List.cons_append]
    · cases h

theorem contains_eq_false {word : List Char} {d : Char} (hd : d ∈ word) : ∀ {cs : List Char}, d ∉ cs →
    Scan.contains word cs = false
  | [], _ => by
    rw [Scan.contains, List.isEmpty_eq_false_iff]
    exact List.ne_nil_of_mem hd
  | c :: cs, hcs => by
    rw [Scan.contains, contains_eq_false hd (fun h => hcs (List.mem_cons_of_mem _ h)), Bool.or_false]
    rw [startsWith, Option.isSome_eq_false_iff, Option.isNone_iff_eq_none]
    cases h : strip? word (c :: cs) with
    | none => rfl
    | some rest =>
      rw [eq_append_of_strip? h] at hcs
      exact absurd (List.mem_append_left _ hd) hcs

/-! ## Tags -/

/-- An attribute as it is scanned. -/
def rawAttribute (a : String × String) : QName × List Char := (.ofString a.1, escaped a.2.toList)

/-- Whether attributes have qualified names. -/
def attributesNamed (as : List (String × String)) : Bool := as.all fun a => isQName a.1

/-- Whether the values of attributes are legal. -/
def attributesLegal (as : List (String × String)) : Bool := as.all fun a => isLegal a.2.toList

theorem not_isSpace_of_isNameChar {c : Char} (hc : isNameChar c = true) : isSpace c = false := by
  cases h : isSpace c with
  | false => rfl
  | true =>
    simp only [isSpace, Bool.or_eq_true, beq_iff_eq] at h
    obtain ((rfl | rfl) | rfl) | rfl := h <;> exact absurd hc (by decide)

theorem skipSpaces_cons {c : Char} (hc : isSpace c = false) (cs : List Char) : Scan.skipSpaces (c :: cs) = c :: cs :=
  List.dropWhile_cons_of_neg (by simp [hc])

theorem equals?_cons (cs : List Char) : Scan.equals? ('=' :: '"' :: cs) = some ('"' :: cs) := by
  rw [Scan.equals?, skipSpaces_cons rfl]
  exact congrArg some (skipSpaces_cons rfl cs)

theorem attributeValue?_append (value : String) (rest : List Char) :
    Scan.attributeValue? ('"' :: (escape value ++ '"' :: rest)) =
      if isLegal value.toList then some (escape value, rest) else none := by
  have hchars : Scan.charsUntil (fun cs => cs.head? == some '"' || cs.head? == some '<') (escape value ++ '"' :: rest) =
      if isLegal (escape value) then some (escape value, '"' :: rest) else none := by
    refine charsUntil_append (by exact (by decide : isCharacter '"' = true)) (fun _ => rfl) (fun c hc ds => ?_)
    obtain ⟨hlt, -, hquote, -⟩ := of_mem_escaped hc
    show (some c == some '"' || some c == some '<') = false
    simp [hlt, hquote]
  rw [Scan.attributeValue?, Scan.quote?]
  simp only [Option.bind_eq_bind, Option.bind_some, hchars]
  rw [escape, ← escaped, isLegal_escaped]
  cases isLegal value.toList <;> rfl

theorem attribute?_append {a : String × String} (ha : isQName a.1 = true) (rest : List Char) :
    Scan.attribute? (a.1.toList ++ '=' :: '"' :: (escape a.2 ++ '"' :: rest)) =
      if isLegal a.2.toList then some (rawAttribute a, rest) else none := by
  have hname := qname?_append ha ('=' :: '"' :: (escape a.2 ++ '"' :: rest)) rfl
  simp only [Scan.attribute?, hname, Option.bind_eq_bind, Option.bind_some, equals?_cons, attributeValue?_append]
  cases isLegal a.2.toList <;> rfl

theorem tagRest?_space {c : Char} (hc : isNameChar c = true) (fuel : Nat) (cs : List Char) :
    Scan.tagRest? (fuel + 1) (' ' :: c :: cs) = (Scan.attribute? (c :: cs)).bind fun r =>
      (Scan.tagRest? fuel r.2).bind fun r' => some ((r.1 :: r'.1.1, r'.1.2), r'.2) := by
  have hskip : Scan.skipSpaces (' ' :: c :: cs) = c :: cs := skipSpaces_cons (not_isSpace_of_isNameChar hc) cs
  rw [Scan.tagRest?]
  · rw [hskip]
    split
    · rename_i heq
      cases heq
      exact absurd hc (by decide)
    · rename_i heq
      cases heq
      exact absurd hc (by decide)
    · rfl
  · exact nofun

/-- **Attributes are scanned one after another**, up to the end of the tag, if their values are legal. -/
theorem tagRest?_append {close rest : List Char} {ending : TagEnd}
    (hclose : ∀ fuel, Scan.tagRest? (fuel + 1) (close ++ rest) = some (([], ending), rest)) :
    ∀ (as : List (String × String)), attributesNamed as = true → ∀ fuel, as.length < fuel →
      Scan.tagRest? fuel (as.flatMap attributeText ++ (close ++ rest)) =
        if attributesLegal as then some ((as.map rawAttribute, ending), rest) else none
  | [], _, fuel, hfuel => by
    obtain ⟨fuel, rfl⟩ : ∃ n, fuel = n + 1 := ⟨fuel - 1, by rw [List.length_nil] at hfuel; omega⟩
    exact hclose fuel
  | a :: as, has, fuel, hfuel => by
    obtain ⟨fuel, rfl⟩ : ∃ n, fuel = n + 1 := ⟨fuel - 1, by omega⟩
    rw [attributesNamed, List.all_cons, Bool.and_eq_true] at has
    have ih := tagRest?_append hclose as has.2 fuel (by rw [List.length_cons] at hfuel; omega)
    have hattribute := attribute?_append has.1 (as.flatMap attributeText ++ (close ++ rest))
    have hcs : (a :: as).flatMap attributeText ++ (close ++ rest) =
        ' ' :: (a.1.toList ++ '=' :: '"' :: (escape a.2 ++ '"' :: (as.flatMap attributeText ++ (close ++ rest)))) := by
      rw [List.flatMap_cons, attributeText]
      simp only [List.cons_append, List.append_assoc, List.nil_append]
    obtain ⟨c, cs, hname, hc⟩ := exists_cons_of_isQName has.1
    rw [hname] at hcs hattribute
    rw [hcs, List.cons_append, tagRest?_space hc, ← List.cons_append, hattribute, attributesLegal, List.all_cons,
      ← attributesLegal]
    cases isLegal a.2.toList with
    | false => rfl
    | true =>
      rw [if_pos rfl, Option.bind_some, ih]
      cases attributesLegal as <;> rfl

/-- An element that is one tag. -/
def Element.isLeaf (e : Element) : Bool := e.children.isEmpty && e.text.isEmpty

/-- The end of the start tag of an element. -/
def Element.ending (e : Element) : TagEnd := if e.isLeaf then .empty else .opening

/-- The start tag of an element. -/
def startTag (e : Element) : List Char := openTag e ++ if e.isLeaf then ['/', '>'] else ['>']

/-- The end tag of an element. -/
def endTag (e : Element) : List Char := '<' :: '/' :: (e.tag.toList ++ ['>'])

/-- The start tag of an element as it is scanned. -/
def startToken (e : Element) : Token := .start (.ofString e.tag) (e.attributes.map rawAttribute) e.ending

theorem length_le_flatMap_attributeText (as : List (String × String)) : as.length ≤ (as.flatMap attributeText).length := by
  induction as with
  | nil => exact Nat.le_refl 0
  | cons a as ih =>
    rw [List.flatMap_cons, List.length_append, List.length_cons, attributeText, List.cons_append, List.cons_append,
      List.length_cons]
    omega

theorem startTag?_append {e : Element} (htag : isQName e.tag = true) (has : attributesNamed e.attributes = true)
    (rest : List Char) : Scan.startTag? (startTag e ++ rest) = if attributesLegal e.attributes then
      some ((.ofString e.tag, e.attributes.map rawAttribute, e.ending), rest) else none := by
  obtain ⟨close, hclose, hcs⟩ : ∃ close, (∀ fuel, Scan.tagRest? (fuel + 1) (close ++ rest) = some (([], e.ending), rest)) ∧
      startTag e ++ rest = '<' :: (e.tag.toList ++ (e.attributes.flatMap attributeText ++ (close ++ rest))) ∧
      (close ++ rest).head?.any isNameChar = false := by
    rw [startTag, openTag, Element.ending]
    cases e.isLeaf with
    | true => exact ⟨['/', '>'], fun fuel => rfl, by simp, rfl⟩
    | false => exact ⟨['>'], fun fuel => rfl, by simp, rfl⟩
  obtain ⟨hcs, hhead⟩ := hcs
  have hname := qname?_append htag (e.attributes.flatMap attributeText ++ (close ++ rest)) (by
    cases e.attributes with
    | nil => exact hhead
    | cons a as => rfl)
  have hrest := tagRest?_append hclose e.attributes has
    ((e.attributes.flatMap attributeText ++ (close ++ rest)).length + 1) (by
      have := length_le_flatMap_attributeText e.attributes
      rw [List.length_append]
      omega)
  rw [hcs, Scan.startTag?, strip?, if_pos rfl, strip?]
  simp only [Option.bind_eq_bind, Option.bind_some, hname, hrest]
  cases attributesLegal e.attributes <;> rfl

theorem endTag?_append {e : Element} (htag : isQName e.tag = true) (rest : List Char) :
    Scan.endTag? (endTag e ++ rest) = some (.ofString e.tag, rest) := by
  have hname := qname?_append htag ('>' :: rest) rfl
  have hcs : endTag e ++ rest = '<' :: '/' :: (e.tag.toList ++ '>' :: rest) := by simp [endTag]
  have hstrip : strip? "</".toList ('<' :: '/' :: (e.tag.toList ++ '>' :: rest)) = some (e.tag.toList ++ '>' :: rest) := rfl
  rw [hcs, Scan.endTag?, hstrip]
  simp only [Option.bind_eq_bind, Option.bind_some, hname, skipSpaces_cons (show isSpace '>' = false from rfl)]
  rfl

/-- **Characters between two tags are one text**, if they are legal. -/
theorem text?_append (cs rest : List Char) :
    Scan.text? (escaped cs ++ '<' :: rest) = if isLegal cs then some (escaped cs, '<' :: rest) else none := by
  have hchars : Scan.charsUntil (·.head? == some '<') (escaped cs ++ '<' :: rest) =
      if isLegal (escaped cs) then some (escaped cs, '<' :: rest) else none := by
    refine charsUntil_append (by exact (by decide : isCharacter '<' = true)) (fun _ => rfl) (fun c hc ds => ?_)
    show (some c == some '<') = false
    simp [(of_mem_escaped hc).1]
  have hend : Scan.contains "]]>".toList (escaped cs) = false :=
    contains_eq_false (d := '>') (by decide) fun h => (of_mem_escaped h).2.1 rfl
  rw [Scan.text?, hchars, isLegal_escaped]
  cases isLegal cs with
  | false => rfl
  | true =>
    simp only [Option.bind_eq_bind, Option.bind_some, hend, if_true]
    rfl

/-! ## Layout -/

/-- A line end and the indentation of the next line. -/
def lineBreak (level : Nat) : List Char := '\n' :: indent level

theorem escaped_append_lineBreak (cs : List Char) (level : Nat) :
    escaped (cs ++ lineBreak level) = escaped cs ++ lineBreak level := by
  have hindent : escaped (indent level) = indent level := by
    rw [escaped, indent]
    induction level with
    | zero => rfl
    | succ n ih => rw [List.replicate_succ, List.flatMap_cons, ih]; rfl
  rw [escaped_append, lineBreak, ← List.singleton_append, escaped_append, hindent]
  rfl

theorem isLegal_append_lineBreak (cs : List Char) (level : Nat) : isLegal (cs ++ lineBreak level) = isLegal cs := by
  have hindent : (indent level).all isCharacter = true := List.all_eq_true.2 fun c hc => by
    rw [List.eq_of_mem_replicate hc]
    decide
  rw [isLegal, List.all_append, lineBreak, List.all_cons, hindent]
  exact Bool.and_true _

mutual

/-- What is between the start tag of an element and the end of its end tag. -/
def inside (level : Nat) : Element → List Char
  | .mk tag attributes text children =>
    if (Element.mk tag attributes text children).isLeaf then []
    else
      escape text ++ (if children.isEmpty then [] else lines level children)
        ++ endTag (.mk tag attributes text children)

/-- Children, each behind a line end, and the line end in front of the end tag. -/
def lines (level : Nat) : List Element → List Char
  | [] => lineBreak level
  | e :: es => lineBreak (level + 1) ++ (startTag e ++ inside (level + 1) e) ++ lines level es

end

mutual

theorem render_eq (level : Nat) : ∀ e : Element,
    render level e = indent level ++ (startTag e ++ (inside level e ++ ['\n']))
  | .mk tag attributes text children => by
    rw [render, inside, startTag, Element.isLeaf, Element.children, Element.text]
    cases children with
    | nil => cases text.isEmpty <;> simp [endTag, Element.tag]
    | cons c cs =>
      have ih := lines_eq level (c :: cs)
      simp only [List.isEmpty_cons, Bool.false_and, Bool.false_eq_true, if_false, ← ih, endTag, Element.tag]
      simp only [List.append_assoc, List.cons_append, List.nil_append]

theorem lines_eq (level : Nat) : ∀ es : List Element, '\n' :: (renderAll (level + 1) es ++ indent level) = lines level es
  | [] => by rw [renderAll, lines, lineBreak]; rfl
  | e :: es => by
    rw [renderAll, lines, render_eq (level + 1) e, lineBreak, ← lines_eq level es]
    simp only [List.append_assoc, List.cons_append, List.nil_append]

end

/-! ## Content -/

mutual

/-- The tokens behind the start tag of an element, up to its end tag. -/
def insideTokens (level : Nat) : Element → List Token
  | .mk tag attributes text children =>
    if (Element.mk tag attributes text children).isLeaf then []
    else
      (if children.isEmpty then [.text (escape text)] else lineTokens level text.toList children)
        ++ [.finish (.ofString tag)]

/-- The tokens of children and of what is before, between and behind them. -/
def lineTokens (level : Nat) (before : List Char) : List Element → List Token
  | [] => [.text (escaped (before ++ lineBreak level))]
  | e :: es =>
    .text (escaped (before ++ lineBreak (level + 1))) :: startToken e ::
      (insideTokens (level + 1) e ++ lineTokens level [] es)

end

mutual

/-- Whether all names in an element are qualified names. -/
def Element.isNamed : Element → Bool
  | .mk tag attributes _ children => isQName tag && attributesNamed attributes && Element.areNamed children

def Element.areNamed : List Element → Bool
  | [] => true
  | e :: es => Element.isNamed e && Element.areNamed es

end

mutual

/-- Whether all characters of the values and texts in an element are legal. -/
def Element.isLegal : Element → Bool
  | .mk _ attributes text children => attributesLegal attributes && (Xml.isLegal text.toList && Element.areLegal children)

def Element.areLegal : List Element → Bool
  | [] => true
  | e :: es => Element.isLegal e && Element.areLegal es

end

theorem Element.isNamed_iff (e : Element) : e.isNamed = true ↔
    isQName e.tag = true ∧ attributesNamed e.attributes = true ∧ areNamed e.children = true := by
  cases e
  rw [isNamed, Bool.and_eq_true, Bool.and_eq_true, and_assoc]
  rfl

/-- Whether all characters inside an element are legal. -/
def Element.isLegalInside (e : Element) : Bool := Xml.isLegal e.text.toList && areLegal e.children

theorem Element.isLegal_eq (e : Element) : e.isLegal = (attributesLegal e.attributes && e.isLegalInside) := by
  cases e
  rfl

namespace Scan

/-- Tokens before those of the rest of the content. -/
def before (ts : List Token) (r : Option (List Token × List Char)) : Option (List Token × List Char) :=
  r.map fun r => (ts ++ r.1, r.2)

theorem before_nil (r : Option (List Token × List Char)) : before [] r = r := by cases r <;> rfl

theorem before_before (ts us : List Token) (r : Option (List Token × List Char)) :
    before ts (before us r) = before (ts ++ us) r := by
  cases r with
  | none => rfl
  | some r => simp only [before, Option.map_some, List.append_assoc]

theorem before_ite (ts : List Token) (b : Bool) (r : Option (List Token × List Char)) :
    before ts (if b then r else none) = if b then before ts r else none := by cases b <;> rfl

theorem content_startTag {e : Element} (htag : isQName e.tag = true) (has : attributesNamed e.attributes = true)
    (fuel depth : Nat) (rest : List Char) : content (fuel + 1) (depth + 1) (startTag e ++ rest) =
      if attributesLegal e.attributes then
        before [startToken e] (content fuel (if e.ending = .empty then depth + 1 else depth + 2) rest)
      else none := by
  obtain ⟨c, cs, hcs, hc⟩ := exists_cons_of_isQName htag
  have hscan := startTag?_append htag has rest
  obtain ⟨tail, htail⟩ : ∃ tail, startTag e ++ rest = '<' :: c :: tail := by
    rw [startTag, openTag, hcs]
    exact ⟨_, rfl⟩
  rw [htail] at hscan ⊢
  have hne : ∀ d : Char, isNameChar d = false → ∀ ds, c :: tail = d :: ds → False := fun d hd ds h => by
    cases h
    exact absurd hc (by simp [hd])
  rw [content]
  · rw [hscan]
    cases attributesLegal e.attributes <;> rfl
  · exact hne '!' rfl
  · exact hne '?' rfl
  · exact hne '/' rfl

theorem content_endTag {e : Element} (htag : isQName e.tag = true) (fuel depth : Nat) (rest : List Char) :
    content (fuel + 1) (depth + 1) (endTag e ++ rest) = before [.finish (.ofString e.tag)] (content fuel depth rest) := by
  have hscan := endTag?_append htag rest
  have hend : endTag e ++ rest = '<' :: '/' :: (e.tag.toList ++ ('>' :: rest)) := by
    rw [endTag]
    simp only [List.append_assoc, List.cons_append, List.nil_append]
  rw [hend] at hscan ⊢
  rw [content]
  show ((endTag? _).bind _) = _
  rw [hscan]
  rfl

theorem content_text {cs : List Char} (hne : cs ≠ []) (fuel depth : Nat) (rest : List Char) :
    content (fuel + 1) (depth + 1) (escaped cs ++ '<' :: rest) = if isLegal cs then
      before [.text (escaped cs)] (content fuel (depth + 1) ('<' :: rest)) else none := by
  have hscan := text?_append cs rest
  obtain ⟨c, tail, htail, hc⟩ : ∃ c tail, escaped cs ++ '<' :: rest = c :: tail ∧ c ≠ '<' := by
    obtain ⟨c, tail, htail⟩ := List.exists_cons_of_ne_nil (escaped_ne_nil hne)
    rw [htail]
    exact ⟨c, _, rfl, (of_mem_escaped (by rw [htail]; exact List.mem_cons_self)).1⟩
  rw [htail] at hscan ⊢
  rw [content]
  · rw [hscan]
    cases isLegal cs <;> rfl
  · exact nofun
  all_goals
    intro ds h
    cases h
    exact hc rfl

mutual

/-- **What is inside an element is scanned whatever follows**, if its characters are legal. -/
theorem content_inside : ∀ (e : Element) (level : Nat), e.isNamed = true → ∀ (fuel depth : Nat) (rest : List Char),
    content (fuel + (insideTokens level e).length) (if e.ending = .empty then depth else depth + 1)
      (inside level e ++ rest) = if e.isLegalInside then before (insideTokens level e) (content fuel depth rest) else none
  | .mk tag attributes text children, level, he, fuel, depth, rest => by
    obtain ⟨htag, -, hchildren⟩ := (Element.isNamed_iff _).1 he
    rw [inside, insideTokens, Element.ending, Element.isLegalInside]
    cases hleaf : (Element.mk tag attributes text children).isLeaf with
    | true =>
      obtain ⟨hempty, htext⟩ := Bool.and_eq_true_iff.1 hleaf
      cases (List.isEmpty_iff (l := children)).1 hempty
      cases String.isEmpty_iff.1 htext
      exact (before_nil _).symm
    | false =>
      rw [if_neg Bool.false_ne_true, if_neg Bool.false_ne_true, if_neg Bool.false_ne_true,
        if_neg (show ¬ TagEnd.opening = TagEnd.empty from nofun), List.length_append, List.length_singleton]
      obtain ⟨tail, htail⟩ : ∃ tail, endTag (.mk tag attributes text children) ++ rest = '<' :: tail := ⟨_, rfl⟩
      have hend := content_endTag htag fuel depth rest
      cases children with
      | nil =>
        have hne : text.toList ≠ [] := fun h => by
          rw [String.toList_eq_nil_iff.1 h] at hleaf
          cases hleaf
        have htext := content_text hne (fuel + 1) depth tail
        rw [← htail, hend, before_before] at htext
        simp only [List.isEmpty_nil, if_true, List.append_nil, List.append_assoc]
        refine htext.trans ?_
        rw [Element.children, Element.areLegal, Bool.and_true]
        rfl
      | cons c cs =>
        have hlines := content_lines (c :: cs) level hchildren text.toList (fuel + 1) depth tail
        rw [← htail, hend, before_before] at hlines
        simp only [List.isEmpty_cons, Bool.false_eq_true, if_false, List.append_assoc] at hlines ⊢
        rw [Nat.add_right_comm] at hlines
        exact hlines

theorem content_lines : ∀ (es : List Element) (level : Nat), Element.areNamed es = true →
    ∀ (cs : List Char) (fuel depth : Nat) (rest : List Char),
      content (fuel + (lineTokens level cs es).length) (depth + 1) (escaped cs ++ lines level es ++ '<' :: rest) =
        if isLegal cs && Element.areLegal es then
          before (lineTokens level cs es) (content fuel (depth + 1) ('<' :: rest))
        else none
  | [], level, _, cs, fuel, depth, rest => by
    rw [lines, lineTokens, ← escaped_append_lineBreak, Element.areLegal, Bool.and_true, ← isLegal_append_lineBreak cs level]
    exact content_text (by simp [lineBreak]) fuel depth rest
  | e :: es, level, hes, cs, fuel, depth, rest => by
    obtain ⟨he, hes⟩ := Bool.and_eq_true_iff.1 hes
    obtain ⟨htag, has, -⟩ := (Element.isNamed_iff _).1 he
    -- the tokens are counted from the last
    have hlines := content_lines es level hes [] fuel depth rest
    have hinside := content_inside e (level + 1) he (fuel + (lineTokens level [] es).length) (depth + 1)
      (lines level es ++ '<' :: rest)
    have hstart := content_startTag htag has
      (fuel + (lineTokens level [] es).length + (insideTokens (level + 1) e).length) depth
      (inside (level + 1) e ++ (lines level es ++ '<' :: rest))
    obtain ⟨tail, htail⟩ : ∃ tail, startTag e ++ (inside (level + 1) e ++ (lines level es ++ '<' :: rest)) = '<' :: tail :=
      ⟨_, rfl⟩
    have htext := content_text (by simp [lineBreak] : cs ++ lineBreak (level + 1) ≠ [])
      (fuel + (lineTokens level [] es).length + (insideTokens (level + 1) e).length + 1) depth tail
    have hfuel : fuel + ((insideTokens (level + 1) e).length + (lineTokens level [] es).length + 1 + 1) =
        fuel + (lineTokens level [] es).length + (insideTokens (level + 1) e).length + 1 + 1 := by omega
    rw [← htail, hstart, hinside, show lines level es ++ '<' :: rest = escaped [] ++ lines level es ++ '<' :: rest from rfl,
      hlines, isLegal_append_lineBreak] at htext
    rw [lines, lineTokens, List.length_cons, List.length_cons, List.length_append, hfuel, Element.areLegal,
      Element.isLegal_eq]
    simp only [List.append_assoc, escaped_append_lineBreak] at htext ⊢
    refine htext.trans ?_
    simp only [show isLegal [] = true from rfl, Bool.true_and, before_ite, before_before, Bool.and_eq_true, ite_and]
    rfl

end

end Scan

/-! ## Documents -/

mutual

theorem length_insideTokens_le : ∀ (e : Element) (level : Nat), (insideTokens level e).length ≤ (inside level e).length
  | .mk tag attributes text children, level => by
    rw [insideTokens, inside]
    cases hleaf : (Element.mk tag attributes text children).isLeaf with
    | true => exact Nat.le_refl 0
    | false =>
      have hend : 1 ≤ (endTag (.mk tag attributes text children)).length := Nat.succ_le_of_lt (Nat.succ_pos _)
      simp only [Bool.false_eq_true, if_false, List.length_append, List.length_singleton]
      cases children with
      | nil =>
        have htext : 1 ≤ (escape text).length := by
          refine Nat.succ_le_of_lt (List.length_pos_iff.2 (escaped_ne_nil fun h => ?_))
          rw [String.toList_eq_nil_iff.1 h] at hleaf
          cases hleaf
        simp only [List.isEmpty_nil, if_true, List.length_singleton, List.length_nil]
        omega
      | cons c cs =>
        have hlines := length_lineTokens_le (c :: cs) level text.toList
        simp only [List.isEmpty_cons, Bool.false_eq_true, if_false]
        omega

theorem length_lineTokens_le : ∀ (es : List Element) (level : Nat) (cs : List Char),
    (lineTokens level cs es).length ≤ (lines level es).length
  | [], level, cs => Nat.succ_le_of_lt (Nat.succ_pos _)
  | e :: es, level, cs => by
    have hinside := length_insideTokens_le e (level + 1)
    have hlines := length_lineTokens_le es level []
    have hbreak : 1 ≤ (lineBreak (level + 1)).length := Nat.succ_le_of_lt (Nat.succ_pos _)
    have hstart : 1 ≤ (startTag e).length := Nat.succ_le_of_lt (Nat.succ_pos _)
    rw [lineTokens, lines]
    simp only [List.length_cons, List.length_append]
    omega

end

theorem startsWith_ne {w c : Char} (h : c ≠ w) (word cs : List Char) :
    startsWith ('<' :: w :: word) ('<' :: c :: cs) = false := by
  rw [startsWith, strip?, if_pos rfl, strip?, if_neg (Ne.symm h)]
  rfl

theorem misc_markup {c : Char} (hbang : c ≠ '!') (hquestion : c ≠ '?') (fuel : Nat) (cs : List Char) :
    Scan.misc (fuel + 1) ('<' :: c :: cs) = some ('<' :: c :: cs) := by
  rw [Scan.misc, skipSpaces_cons rfl]
  show (if startsWith ('<' :: '!' :: "--".toList) ('<' :: c :: cs) then _ else
    if startsWith ('<' :: '?' :: []) ('<' :: c :: cs) then _ else _) = _
  rw [startsWith_ne hbang, startsWith_ne hquestion]
  rfl

theorem rootContent_append {e : Element} (he : e.isNamed = true) (rest : List Char) :
    Scan.rootContent (startTag e ++ (inside 0 e ++ rest)) =
      if e.isLegal then some (startToken e :: insideTokens 0 e, rest) else none := by
  obtain ⟨htag, has, -⟩ := (Element.isNamed_iff e).1 he
  have hstart := startTag?_append htag has (inside 0 e ++ rest)
  obtain ⟨fuel, hfuel⟩ : ∃ fuel, (inside 0 e ++ rest).length + 1 = fuel + (insideTokens 0 e).length := by
    refine ⟨(inside 0 e ++ rest).length + 1 - (insideTokens 0 e).length, ?_⟩
    have := length_insideTokens_le e 0
    rw [List.length_append]
    omega
  have hinside := Scan.content_inside e 0 he fuel 0 rest
  have hend : Scan.content fuel 0 rest = some ([], rest) := by cases fuel <;> rfl
  obtain ⟨tail, htail⟩ : ∃ tail, startTag e ++ (inside 0 e ++ rest) = '<' :: tail := ⟨_, rfl⟩
  rw [htail] at hstart ⊢
  rw [Scan.rootContent, hstart, Element.isLegal_eq]
  cases attributesLegal e.attributes with
  | false => rfl
  | true =>
    simp only [Option.bind_eq_bind, Option.bind_some, hfuel, hinside, hend, if_true, Bool.true_and]
    rw [Scan.before, Option.map_some, List.append_nil]
    cases e.isLegalInside <;> rfl

/-- **A printed element is scanned as its tokens**, if its names are qualified names, and its characters are legal. -/
theorem ofText?_print {e : Element} (he : e.isNamed = true) :
    Markup.ofText? (print e) = if e.isLegal then some ⟨[], startToken e :: insideTokens 0 e⟩ else none := by
  have hroot := rootContent_append he ['\n']
  obtain ⟨c, cs, hcs, hc⟩ := exists_cons_of_isQName ((Element.isNamed_iff e).1 he).1
  obtain ⟨tail, htail⟩ : ∃ tail, startTag e ++ (inside 0 e ++ ['\n']) = '<' :: c :: tail := by
    rw [startTag, openTag, hcs]
    exact ⟨_, rfl⟩
  have hbang : c ≠ '!' := by
    rintro rfl
    exact absurd hc (by decide)
  have hquestion : c ≠ '?' := by
    rintro rfl
    exact absurd hc (by decide)
  have hprint : print e = '<' :: c :: tail := by rw [print, render_eq, ← htail]; rfl
  have hmark : strip? ['\ufeff'] ('<' :: c :: tail) = none := rfl
  have hversion : startsWith "<?xml ".toList ('<' :: c :: tail) = false := startsWith_ne hquestion _ _
  have htype : startsWith "<!DOCTYPE".toList ('<' :: c :: tail) = false := startsWith_ne hbang _ _
  rw [htail] at hroot
  rw [hprint, Markup.ofText?, hmark]
  simp only [Option.getD_none, Option.bind_eq_bind, Option.bind_some, hversion, htype, Bool.false_eq_true, if_false,
    misc_markup hbang hquestion, hroot]
  cases e.isLegal <;> rfl

end Xml
end Interchange
