import Interchange.Proofs.Utf8
import Interchange.Proofs.Xml.Scanning
/-!
# Building — the node of a printed element

The tokens of an element are built into the node that the element stands for (`Element.node?`): names are resolved in the
scope that its declarations make, and the line ends and indentation between its children are part of its text.
-/
namespace Interchange
namespace Xml

/-! ## Data read back -/

/-- Whether a character is written as an entity. -/
def isMarkup (c : Char) : Bool := escapeChar c != [c]

theorem escapeChar_of_isMarkup {c : Char} (hc : isMarkup c = true) :
    ∃ word, escapeChar c = '&' :: word ∧ ∀ rest, Reference.scan? (word ++ rest) = some (.char c, rest) := by
  unfold isMarkup at hc
  unfold escapeChar at hc ⊢
  split
  case h_6 => simp at hc
  all_goals exact ⟨_, rfl, fun rest => rfl⟩

theorem escapeChar_of_not_isMarkup {c : Char} (hc : isMarkup c = false) : escapeChar c = [c] ∧ c ≠ '&' := by
  unfold isMarkup at hc
  refine ⟨by simpa using hc, ?_⟩
  rintro rfl
  exact absurd hc (by decide)

/-- The characters of an attribute value once it was written and read. -/
def attributeData : List Char → List Char
  | [] => []
  | c :: cs => attributeBlank c cs.head? ++ attributeData cs

/-- The characters of a text once it was written and read, behind others, the last of them first. -/
def textData (before : List Char) (keepNext : Bool) : List Char → List Char
  | [] => before.reverse
  | c :: cs =>
    if isMarkup c then textData (c :: before) true cs
    else textData (if keepNext then c :: before else pushData c cs.isEmpty before) false cs

theorem escaped_cons (c : Char) (cs : List Char) : escaped (c :: cs) = escapeChar c ++ escaped cs := rfl

theorem attributeBlank_of_isMarkup {c : Char} (hc : isMarkup c = true) (next : Option Char) :
    attributeBlank c next = [c] := by
  have hne : ∀ d : Char, isMarkup d = false → (c == d) = false := fun d hd => by
    rw [beq_eq_false_iff_ne]
    rintro rfl
    rw [hd] at hc
    cases hc
  unfold attributeBlank
  rw [hne '\r' rfl, hne '\n' rfl, hne '\t' rfl]
  rfl

theorem attributeBlank_escaped (c : Char) (cs : List Char) :
    attributeBlank c (escaped cs).head? = attributeBlank c cs.head? := by
  have hhead : ((escaped cs).head? == some '\n') = (cs.head? == some '\n') := by
    cases cs with
    | nil => rfl
    | cons d ds =>
      rw [escaped_cons]
      cases hd : isMarkup d with
      | true =>
        obtain ⟨word, hword, -⟩ := escapeChar_of_isMarkup hd
        rw [hword]
        have hne : d ≠ '\n' := by
          rintro rfl
          exact absurd hd (by decide)
        simp [hne]
      | false => rw [(escapeChar_of_not_isMarkup hd).1]; rfl
  unfold attributeBlank
  rw [hhead]

/-- **A value is read back from its data**, one reference for each character written as an entity. -/
theorem attributeCharsWith_escaped (expand : String → Nat → Option (List Char × Nat)) (references : Nat) :
    ∀ (cs : List Char) (fuel : Nat), (escaped cs).length < fuel →
      attributeCharsWith true expand fuel (escaped cs) references = some (attributeData cs, references)
  | [], fuel, hfuel => by
    obtain ⟨fuel, rfl⟩ : ∃ n, fuel = n + 1 := ⟨fuel - 1, by omega⟩
    rfl
  | c :: cs, fuel, hfuel => by
    obtain ⟨fuel, rfl⟩ : ∃ n, fuel = n + 1 := ⟨fuel - 1, by omega⟩
    rw [escaped_cons, List.length_append] at hfuel
    rw [escaped_cons]
    cases hc : isMarkup c with
    | true =>
      obtain ⟨word, hword, hscan⟩ := escapeChar_of_isMarkup hc
      rw [hword, List.length_cons] at hfuel
      have ih := attributeCharsWith_escaped expand references cs fuel (by omega)
      rw [hword, List.cons_append, attributeCharsWith, if_neg (by simp), hscan]
      simp only [Option.bind_eq_bind, Option.bind_some, if_true, ih, attributeData, attributeBlank_of_isMarkup hc]
      rfl
    | false =>
      obtain ⟨hchar, hne⟩ := escapeChar_of_not_isMarkup hc
      rw [hchar, List.length_singleton] at hfuel
      have ih := attributeCharsWith_escaped expand references cs fuel (by omega)
      rw [hchar, List.singleton_append, attributeCharsWith, if_pos hne]
      simp only [Option.bind_eq_bind, Option.bind_some, ih, attributeData, attributeBlank_escaped]
      rfl

theorem attributeChars_escaped (cs : List Char) :
    attributeChars [] maxEntityDepth (escaped cs) 0 = some (attributeData cs, 0) :=
  attributeCharsWith_escaped _ _ cs _ (Nat.lt_succ_self _)

/-- **A text is read back from its data.** -/
theorem piecesFrom_escaped : ∀ (cs : List Char) (fuel : Nat) (before : List Char) (keepNext : Bool),
    (escaped cs).length < fuel →
      piecesFrom true fuel before keepNext (escaped cs) = some [.chars (textData before keepNext cs)]
  | [], fuel, before, keepNext, hfuel => by
    obtain ⟨fuel, rfl⟩ : ∃ n, fuel = n + 1 := ⟨fuel - 1, by omega⟩
    rfl
  | c :: cs, fuel, before, keepNext, hfuel => by
    obtain ⟨fuel, rfl⟩ : ∃ n, fuel = n + 1 := ⟨fuel - 1, by omega⟩
    rw [escaped_cons, List.length_append] at hfuel
    rw [escaped_cons, textData]
    cases hc : isMarkup c with
    | true =>
      obtain ⟨word, hword, hscan⟩ := escapeChar_of_isMarkup hc
      rw [hword, List.length_cons] at hfuel
      rw [hword, List.cons_append, piecesFrom, if_neg (by simp), hscan]
      simp only [Option.bind_eq_bind, Option.bind_some, if_true]
      exact piecesFrom_escaped cs fuel (c :: before) true (by omega)
    | false =>
      obtain ⟨hchar, hne⟩ := escapeChar_of_not_isMarkup hc
      rw [hchar, List.length_singleton] at hfuel
      rw [hchar, List.singleton_append, piecesFrom, if_pos hne]
      have hempty : (escaped cs).isEmpty = cs.isEmpty := by
        cases cs with
        | nil => rfl
        | cons d ds => exact List.isEmpty_eq_false_iff.2 (escaped_ne_nil (List.cons_ne_nil _ _))
      rw [hempty]
      exact piecesFrom_escaped cs fuel _ false (by omega)

theorem pieces_escaped (cs : List Char) : pieces true (escaped cs) = some [.chars (textData [] false cs)] :=
  piecesFrom_escaped cs _ [] false (Nat.lt_succ_self _)

/-! ## The node of an element -/

/-- The attributes of a tag sorted one after another, their values read back. -/
def tagData? : List (String × String) → TagData → Option TagData
  | [], t => some t
  | a :: as, t => (t.add? (.ofString a.1) (String.ofList (attributeData a.2.toList))).bind (tagData? as)

/-- The text of an element with children, with the line ends and the indentation around them, behind other text. -/
def lineText (level : Nat) (before : List Char) : List Element → List Char
  | [] => textData [] false (before ++ lineBreak level)
  | _ :: es => textData [] false (before ++ lineBreak (level + 1)) ++ lineText level [] es

/-- The text of an element once it was written and read. -/
def Element.textRead (level : Nat) (e : Element) : List Char :=
  if e.children.isEmpty then textData [] false e.text.toList else lineText level e.text.toList e.children

/-- **The frame that an element opens** inside the bindings of its parent, if it can: its tag has not the label `xmlns`, its
own declarations are in order (`TagData.add?`), the labels of its tag and of its attributes are bound, `xml` needing no
binding at an attribute, and no two attributes have one namespace and base. -/
def Element.frame? (outer : Scope) (e : Element) : Option Frame := do
  if (QName.ofString e.tag).label = "xmlns" then none
  else
    let t ← tagData? e.attributes .empty
    let scope := t.own.declare outer
    let resolved ← resolveAttributes? scope [] t.attributes
    let name ← scope.resolve? (.ofString e.tag)
    return ⟨.ofString e.tag, name, resolved, scope, [], []⟩

mutual

/-- **The node that an element stands for** inside the bindings of its parent, if it and all elements in it open frames. -/
def Element.node? (outer : Scope) (level : Nat) : Element → Option Node
  | .mk tag attributes text children => do
    let f ← Element.frame? outer (.mk tag attributes text children)
    let nodes ← Element.nodes? f.scope (level + 1) children
    return .mk f.name f.attributes f.scope (Element.textRead level (.mk tag attributes text children)) nodes

def Element.nodes? (outer : Scope) (level : Nat) : List Element → Option (List Node)
  | [] => some []
  | e :: es => do
    let n ← Element.node? outer level e
    let ns ← Element.nodes? outer level es
    return n :: ns

end

theorem Element.exists_of_frame?_eq_some {e : Element} {outer : Scope} {f : Frame} (hf : e.frame? outer = some f) :
    ∃ name resolved scope, f = ⟨.ofString e.tag, name, resolved, scope, [], []⟩ := by
  rw [frame?] at hf
  split at hf
  · cases hf
  · simp only [Option.bind_eq_bind, Option.bind_eq_some_iff] at hf
    obtain ⟨t, -, resolved, -, name, -, hf⟩ := hf
    cases hf
    exact ⟨name, resolved, _, rfl⟩

/-! ## Steps -/

namespace Build

variable (expand : String → Build → Option Build) (root : Option Node)

theorem tagData?_rawAttribute : ∀ (as : List (String × String)) (t : TagData),
    Build.tagData? [] maxEntityDepth (as.map rawAttribute) t 0 = (Xml.tagData? as t).map (·, 0)
  | [], t => rfl
  | a :: as, t => by
    rw [List.map_cons, rawAttribute, Build.tagData?, attributeChars_escaped, Xml.tagData?]
    cases h : t.add? (.ofString a.1) (String.ofList (attributeData a.2.toList)) with
    | none => simp only [Option.bind_eq_bind, Option.bind_some, h, Option.bind_none, Option.map_none]
    | some t' =>
      simp only [Option.bind_eq_bind, Option.bind_some, h]
      exact tagData?_rawAttribute as t'

theorem step_text (cs : List Char) (f : Frame) (fs : List Frame) :
    step [] maxEntityDepth expand ⟨f :: fs, root, .empty, 0⟩ (.text (escaped cs)) =
      some ⟨{ f with text := f.text ++ textData [] false cs } :: fs, root, .empty, 0⟩ := by
  rw [step, show decide (maxEntityDepth = maxEntityDepth) = true from rfl, pieces_escaped]
  rfl

theorem step_finish (f : Frame) (fs : List Frame) :
    step [] maxEntityDepth expand ⟨f :: fs, root, .empty, 0⟩ (.finish f.written) =
      some (attach ⟨fs, root, .empty, 0⟩ f.node) := by
  rw [step, close?]
  exact if_pos rfl

theorem step_startToken (e : Element) (frames : List Frame) :
    step [] maxEntityDepth expand ⟨frames, root, .empty, 0⟩ (startToken e) =
      (e.frame? (scope ⟨frames, root, .empty, 0⟩)).map fun f =>
        if e.isLeaf then attach ⟨frames, root, .empty, 0⟩ f.node else ⟨f :: frames, root, .empty, 0⟩ := by
  rw [startToken, step, open?, Element.frame?, tagData?_rawAttribute, Element.ending]
  split
  · rfl
  · cases Xml.tagData? e.attributes .empty with
    | none => rfl
    | some t =>
      simp only [Option.map_some, Option.bind_eq_bind, Option.bind_some, frame?]
      generalize t.own.declare (scope ⟨frames, root, .empty, 0⟩) = inner
      cases resolveAttributes? inner [] t.attributes with
      | none => cases e.isLeaf <;> rfl
      | some resolved => cases inner.resolve? (.ofString e.tag) <;> cases e.isLeaf <;> rfl

/-- **What is inside an element that is not one tag**, given how its children and the lines around them are built. -/
theorem foldlM_inside (e : Element) {level : Nat} (f : Frame) (fs : List Frame) (htext : f.text = [])
    (hchildren : f.children = [])
    (hlines : ∀ cs : List Char, (lineTokens level cs e.children).foldlM (step [] maxEntityDepth expand)
      ⟨f :: fs, root, .empty, 0⟩ = (Element.nodes? f.scope (level + 1) e.children).map fun ns =>
        ⟨{ f with text := f.text ++ lineText level cs e.children, children := ns.reverse ++ f.children } :: fs,
          root, .empty, 0⟩) :
    (if e.children.isEmpty then [.text (escape e.text)] else lineTokens level e.text.toList e.children).foldlM
        (step [] maxEntityDepth expand) ⟨f :: fs, root, .empty, 0⟩ =
      (Element.nodes? f.scope (level + 1) e.children).map fun ns =>
        ⟨{ f with text := e.textRead level, children := ns.reverse } :: fs, root, .empty, 0⟩ := by
  obtain ⟨tag, attributes, text, children⟩ := e
  obtain ⟨written, name, resolved, scope, _, _⟩ := f
  cases htext
  cases hchildren
  cases children with
  | nil =>
    have hstep := step_text expand root text.toList ⟨written, name, resolved, scope, [], []⟩ fs
    change [Token.text (escaped text.toList)].foldlM _ _ = _
    rw [List.foldlM_cons, hstep]
    rfl
  | cons c cs =>
    have hlines := hlines text.toList
    simp only [List.append_nil] at hlines
    exact hlines

mutual

/-- **The tokens of an element attach its node** to what is open, if it stands for one. -/
theorem foldlM_element : ∀ (e : Element) (level : Nat) (frames : List Frame),
    (startToken e :: insideTokens level e).foldlM (step [] maxEntityDepth expand) ⟨frames, root, .empty, 0⟩ =
      (e.node? (scope ⟨frames, root, .empty, 0⟩) level).map (attach ⟨frames, root, .empty, 0⟩)
  | .mk tag attributes text children, level, frames => by
    rw [List.foldlM_cons, step_startToken, insideTokens, Element.node?]
    cases hf : (Element.mk tag attributes text children).frame? (scope ⟨frames, root, .empty, 0⟩) with
    | none => rfl
    | some f =>
      obtain ⟨name, resolved, inner, rfl⟩ := Element.exists_of_frame?_eq_some hf
      simp only [Option.map_some, Option.bind_eq_bind, Option.bind_some]
      cases hleaf : (Element.mk tag attributes text children).isLeaf with
      | true =>
        obtain ⟨hchildren, htext⟩ := Bool.and_eq_true_iff.1 hleaf
        cases (List.isEmpty_iff (l := children)).1 hchildren
        cases String.isEmpty_iff.1 htext
        rfl
      | false =>
        have hinside := foldlM_inside expand root (.mk tag attributes text children)
          ⟨.ofString tag, name, resolved, inner, [], []⟩ frames rfl rfl fun cs => foldlM_lines children level cs _ frames
        rw [if_neg Bool.false_ne_true, if_neg Bool.false_ne_true, List.foldlM_append]
        refine (congrArg (· >>= fun b => [Token.finish (.ofString tag)].foldlM (step [] maxEntityDepth expand) b)
          hinside).trans ?_
        dsimp only [Element.children]
        cases Element.nodes? inner (level + 1) children with
        | none => rfl
        | some nodes =>
          have hfinish := step_finish expand root ⟨.ofString tag, name, resolved, inner,
            (Element.mk tag attributes text children).textRead level, nodes.reverse⟩ frames
          rw [Option.map_some, Option.bind_eq_bind, Option.bind_some, List.foldlM_cons]
          change (step _ _ _ _ (.finish (QName.ofString tag)) >>= _) = _
          rw [hfinish, Frame.node, List.reverse_reverse]
          rfl

theorem foldlM_lines : ∀ (es : List Element) (level : Nat) (cs : List Char) (f : Frame) (fs : List Frame),
    (lineTokens level cs es).foldlM (step [] maxEntityDepth expand) ⟨f :: fs, root, .empty, 0⟩ =
      (Element.nodes? f.scope (level + 1) es).map fun ns =>
        ⟨{ f with text := f.text ++ lineText level cs es, children := ns.reverse ++ f.children } :: fs, root, .empty, 0⟩
  | [], level, cs, f, fs => by
    rw [lineTokens, List.foldlM_cons, step_text]
    rfl
  | e :: es, level, cs, f, fs => by
    have helement := foldlM_element e (level + 1)
      ({ f with text := f.text ++ textData [] false (cs ++ lineBreak (level + 1)) } :: fs)
    rw [lineTokens, List.foldlM_cons, step_text, Option.bind_eq_bind, Option.bind_some, ← List.cons_append,
      List.foldlM_append, helement, Element.nodes?]
    change ((e.node? f.scope (level + 1)).map _ >>= _) = _
    cases e.node? f.scope (level + 1) with
    | none => rfl
    | some n =>
      have hlines := foldlM_lines es level [] { f with
        text := f.text ++ textData [] false (cs ++ lineBreak (level + 1))
        children := n :: f.children } fs
      rw [Option.map_some, Option.bind_eq_bind, Option.bind_some, attach]
      dsimp only
      rw [hlines]
      cases Element.nodes? f.scope (level + 1) es with
      | none => rfl
      | some ns =>
        have hreverse : ns.reverse ++ n :: f.children = (n :: ns).reverse ++ f.children := by simp
        simp only [Option.map_some, lineText, List.append_assoc]
        rw [hreverse]
        rfl

end

end Build

/-- **An element whose names are qualified names is read as the node that it stands for**, if its characters are legal and
there is one. -/
theorem ofMarkup?_print {e : Element} (he : e.isNamed = true) :
    (Markup.ofText? (print e)).bind Node.ofMarkup? = if e.isLegal then e.node? [] 0 else none := by
  have hrun : Build.run [] maxEntityDepth (startToken e :: insideTokens 0 e) ⟨[], none, .empty, 0⟩ =
      (e.node? [] 0).map (Build.attach ⟨[], none, .empty, 0⟩) := Build.foldlM_element _ none e 0 []
  rw [ofText?_print he]
  cases e.isLegal with
  | false => rfl
  | true =>
    rw [if_pos rfl, if_pos rfl, Option.bind_some, Node.ofMarkup?, hrun]
    cases e.node? [] 0 <;> rfl

/-- **An element that is markup**: its names are qualified names, its characters are legal, and its namespaces are in order,
here and in all elements inside it. -/
structure Element.IsMarkup (e : Element) : Prop where
  named : e.isNamed = true
  legal : e.isLegal = true
  /-- The element stands for a node (`Element.frame?`).  Besides a binding for every label, this asks that no label is
  declared twice in a tag, that declarations leave the two fixed namespaces alone, and that no two attributes of an element
  have one namespace and base, whatever their labels. -/
  resolves : (e.node? [] 0).isSome = true

instance (e : Element) : Decidable e.IsMarkup :=
  decidable_of_iff (e.isNamed = true ∧ e.isLegal = true ∧ (e.node? [] 0).isSome = true)
    ⟨fun h => ⟨h.1, h.2.1, h.2.2⟩, fun h => ⟨h.named, h.legal, h.resolves⟩⟩

theorem read_encode {cs : List Char} (hne : cs ≠ []) (h : Heap) : read h (Utf8.encode cs) =
    match (Markup.ofText? cs).bind Node.ofMarkup? with
    | some n => .ok (.table ((Element.ofNode [] n).load h).1, ((Element.ofNode [] n).load h).2)
    | none => .error (.badSyntax .xml .grammar) := by
  have hempty : ¬ cs.isEmpty = true := by rwa [List.isEmpty_iff]
  cases hn : (Markup.ofText? cs).bind Node.ofMarkup? <;>
    simp only [read, Utf8.isEmpty_encode, if_neg hempty, Utf8.decode_encode, hn]

theorem print_ne_nil (e : Element) : print e ≠ [] := by
  obtain ⟨tag, attributes, text, children⟩ := e
  rw [print, render_eq]
  exact List.cons_ne_nil _ _

theorem read_print {e : Element} (he : e.isNamed = true) (h : Heap) : read h (Utf8.encode (print e)) =
    match if e.isLegal then e.node? [] 0 else none with
    | some n => .ok (.table ((Element.ofNode [] n).load h).1, ((Element.ofNode [] n).load h).2)
    | none => .error (.badSyntax .xml .grammar) := by
  rw [read_encode (print_ne_nil e), ofMarkup?_print he]

/-- **The text of an element that is markup is read as the node that the element stands for.** -/
theorem Element.IsMarkup.read_print {e : Element} (he : e.IsMarkup) :
    ∃ n, e.node? [] 0 = some n ∧ ∀ h, read h (Utf8.encode (print e)) =
      .ok (.table ((Element.ofNode [] n).load h).1, ((Element.ofNode [] n).load h).2) := by
  obtain ⟨n, hn⟩ := Option.isSome_iff_exists.1 he.resolves
  refine ⟨n, hn, fun h => ?_⟩
  rw [Xml.read_print he.named, he.legal, if_pos rfl, hn]

/-- **The text of any other element is refused**, if its names are qualified names. -/
theorem read_print_error {e : Element} (he : e.isNamed = true) (hmarkup : ¬ e.IsMarkup) (h : Heap) :
    read h (Utf8.encode (print e)) = .error (.badSyntax .xml .grammar) := by
  rw [read_print he]
  cases hlegal : e.isLegal with
  | false => rfl
  | true =>
    cases hn : e.node? [] 0 with
    | none => rfl
    | some n => exact absurd ⟨he, hlegal, Option.isSome_iff_exists.2 ⟨n, hn⟩⟩ hmarkup

end Xml
end Interchange
