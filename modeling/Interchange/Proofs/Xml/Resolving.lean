import Interchange.Proofs.Xml.Naming
/-!
# Resolving — names that come back

The declarations among the attributes of an element say how the names in it are resolved.  An element is settled if these
names are written again as they were and its data is read as it is written.  What is read from the text of settled elements
is the element itself, but for the line ends and the indentation around its children (`Element.read_print_of_isSettled`).
-/
namespace Interchange
namespace Xml

/-! ## Declarations -/

/-- **The binding that an attribute declares**, if it is a declaration. -/
def Binding.ofAttribute? (a : String × String) : Option Binding :=
  if (QName.ofString a.1).label = "xmlns" then some ⟨some (QName.ofString a.1).base, a.2⟩
  else if (QName.ofString a.1).base = "xmlns" then some ⟨none, a.2⟩
  else none

def Binding.name (b : Binding) : QName :=
  match b.label with
  | some label => ⟨"xmlns", label⟩
  | none => ⟨"", "xmlns"⟩

theorem isNCName_xmlns : isNCName "xmlns" = true := by decide

theorem Binding.IsProper.name {b : Binding} (hb : b.IsProper) : b.name.IsProper := by
  obtain ⟨label, uri⟩ := b
  cases label with
  | none => exact ⟨isNCName_xmlns, .inl rfl⟩
  | some label => exact ⟨(hb.label label rfl).1, .inr isNCName_xmlns⟩

theorem Binding.attribute_eq (b : Binding) : b.attribute = (b.name.written, b.uri) := by
  obtain ⟨label, uri⟩ := b
  cases label <;> rfl

theorem Binding.IsProper.ofString_attribute {b : Binding} (hb : b.IsProper) : QName.ofString b.attribute.1 = b.name := by
  rw [attribute_eq]
  exact QName.ofString_written hb.name

theorem Binding.IsProper.ofAttribute?_attribute {b : Binding} (hb : b.IsProper) : ofAttribute? b.attribute = some b := by
  rw [ofAttribute?, hb.ofString_attribute, attribute_eq]
  obtain ⟨label, uri⟩ := b
  cases label <;> rfl

theorem Binding.attribute_eq_of_label {b c : Binding} (hlabel : b.label = c.label) : b.attribute.1 = c.attribute.1 := by
  rw [attribute_eq, attribute_eq, Binding.name, Binding.name, hlabel]

/-- **A declaration binds its label**, if nothing was bound to it. -/
theorem Binding.IsProper.add? {b : Binding} (hb : b.IsProper) {t : TagData} (hnew : ∀ c ∈ t.own, c.label ≠ b.label) :
    t.add? b.name b.uri = some { t with own := t.own ++ [b] } := by
  obtain ⟨label, uri⟩ := b
  obtain ⟨huri, huri'⟩ := hb.uri
  cases label with
  | none =>
    dsimp only [TagData.add?, Binding.name]
    rw [if_neg (by decide), if_pos rfl, if_neg (not_or.2 ⟨huri, huri'⟩)]
  | some label =>
    have hxml := (hb.label label rfl).2
    have hfree : t.own.any (·.label == some label) = false := by
      rw [List.any_eq_false]
      exact fun c hc => by simpa using hnew c hc
    dsimp only [TagData.add?, Binding.name]
    rw [if_pos rfl, if_neg (by simp_all), hfree, if_neg Bool.false_ne_true, if_neg huri]

/-- **A scope adds the bindings that are not in the one outside it.** -/
theorem introduced_declare {own outer : Scope} (h : ∀ b ∈ own, b ∉ outer) : introduced outer (own.declare outer) = own := by
  obtain ⟨more, heq, hmore⟩ := Scope.exists_declare_eq own outer
  have hown : own.filter (fun b => !outer.contains b) = own := List.filter_eq_self.2 fun b hb => by simpa using h b hb
  have houter : more.filter (fun b => !outer.contains b) = [] :=
    List.filter_eq_nil_iff.2 fun b hb => by simpa using hmore b hb
  rw [introduced, heq, List.filter_append, hown, houter, List.append_nil]

namespace Element

/-- The bindings that an element declares. -/
def declarations (e : Element) : Scope := e.attributes.filterMap Binding.ofAttribute?

/-- The attributes that are no declarations. -/
def others (e : Element) : List (String × String) := e.attributes.filter fun a => (Binding.ofAttribute? a).isNone

/-- The bindings at an element, inside those of its parent. -/
def scope (outer : Scope) (e : Element) : Scope := e.declarations.declare outer

/-- **Every element inside an element is such in the bindings of its parent**, itself among them. -/
inductive AllIn (P : Scope → Element → Prop) : Scope → Element → Prop where
  | mk {outer : Scope} {e : Element} (h : P outer e) (hchildren : ∀ c ∈ e.children, AllIn P (e.scope outer) c) :
    AllIn P outer e

theorem AllIn.all {P : Scope → Element → Prop} {Q : Element → Prop} (hPQ : ∀ outer e, P outer e → Q e) {outer : Scope}
    {e : Element} (he : e.AllIn P outer) : e.All Q := by
  induction he with
  | mk h _ ih => exact .mk (hPQ _ _ h) ih

mutual

def decAllIn (P : Scope → Element → Prop) [∀ outer e, Decidable (P outer e)] (outer : Scope) :
    (e : Element) → Decidable (e.AllIn P outer)
  | .mk tag attributes text children =>
    @decidable_of_iff _ (P outer (.mk tag attributes text children) ∧
        ∀ c ∈ children, c.AllIn P (scope outer (.mk tag attributes text children)))
      ⟨fun h => .mk h.1 h.2, fun | .mk h hchildren => ⟨h, hchildren⟩⟩
      (@instDecidableAnd _ _ _ (decAllIns P _ children))

def decAllIns (P : Scope → Element → Prop) [∀ outer e, Decidable (P outer e)] (outer : Scope) :
    (es : List Element) → Decidable (∀ e ∈ es, e.AllIn P outer)
  | [] => isTrue (List.forall_mem_nil _)
  | e :: es =>
    @decidable_of_iff _ (e.AllIn P outer ∧ ∀ e ∈ es, e.AllIn P outer) List.forall_mem_cons.symm
      (@instDecidableAnd _ _ (decAllIn P outer e) (decAllIns P outer es))

end

instance (P : Scope → Element → Prop) [∀ outer e, Decidable (P outer e)] (outer : Scope) (e : Element) :
    Decidable (e.AllIn P outer) := decAllIn P outer e

end Element

/-! ## Data read as it is written -/

/-- Whether a value is read as it is written: its characters are legal, and the space is the only white space among them. -/
def isPlainValue (s : String) : Bool := s.toList.all fun c => isCharacter c && c != '\t' && c != '\n' && c != '\r'

/-- Whether a text is read as it is written: its characters are legal, and there is no carriage return among them. -/
def isPlainText (s : String) : Bool := s.toList.all fun c => isCharacter c && c != '\r'

theorem isLegal_of_isPlainValue {s : String} (hs : isPlainValue s = true) : isLegal s.toList = true := by
  refine List.all_eq_true.2 fun c hc => ?_
  have hc := List.all_eq_true.1 hs c hc
  simp only [Bool.and_eq_true] at hc
  exact hc.1.1.1

theorem isPlainText_iff {s : String} : isPlainText s = true ↔ isLegal s.toList = true ∧ '\r' ∉ s.toList := by
  simp only [isPlainText, isLegal, List.all_eq_true, Bool.and_eq_true, bne_iff_ne, ne_eq]
  constructor
  · exact fun h => ⟨fun c hc => (h c hc).1, fun hm => (h _ hm).2 rfl⟩
  · rintro ⟨hlegal, hm⟩ c hc
    exact ⟨hlegal c hc, by rintro rfl; exact hm hc⟩

theorem attributeData_of_isPlainValue {s : String} (hs : isPlainValue s = true) : attributeData s.toList = s.toList := by
  rw [isPlainValue] at hs
  generalize s.toList = cs at hs ⊢
  induction cs with
  | nil => rfl
  | cons c cs ih =>
    rw [List.all_cons, Bool.and_eq_true] at hs
    obtain ⟨hc, hs⟩ := hs
    simp only [Bool.and_eq_true, bne_iff_ne, ne_eq] at hc
    have hblank : attributeBlank c cs.head? = [c] := by
      unfold attributeBlank
      rw [if_neg (by simp [hc.2]), if_neg (by simp [hc.2, hc.1.2, hc.1.1.2])]
    rw [attributeData, hblank, ih hs]
    rfl

theorem textData_of_not_mem : ∀ {cs before : List Char} {keepNext : Bool}, '\r' ∉ cs → before.head? ≠ some '\r' →
    textData before keepNext cs = before.reverse ++ cs
  | [], before, _, _, _ => (List.append_nil _).symm
  | c :: cs, before, keepNext, hcs, hbefore => by
    rw [List.mem_cons, not_or] at hcs
    have hc : c ≠ '\r' := Ne.symm hcs.1
    have hpush : pushData c cs.isEmpty before = c :: before := by
      unfold pushData
      split
      · exact absurd rfl hbefore
      · rw [if_neg (by simp [hc])]
    have hnext : ∀ keep, textData (c :: before) keep cs = before.reverse ++ c :: cs := fun keep => by
      rw [textData_of_not_mem hcs.2 (by simpa using hc), List.reverse_cons, List.append_assoc, List.singleton_append]
    rw [textData, hpush, ite_self, hnext, hnext, ite_self]

theorem textData_nil {cs : List Char} (hcs : '\r' ∉ cs) : textData [] false cs = cs := textData_of_not_mem hcs nofun

/-! ## Layout -/

/-- The line ends and the indentation around so many children. -/
def layout (level count : Nat) : List Char := (List.replicate count (lineBreak (level + 1))).flatten ++ lineBreak level

namespace Element

/-- The text of an element with what stands around its children. -/
def laidText (level : Nat) (e : Element) : String :=
  if e.children.isEmpty then e.text else e.text ++ String.ofList (layout level e.children.length)

mutual

/-- **An element with the layout of its text** in all texts: line ends and indentation follow the text before children. -/
def relaid (level : Nat) : Element → Element
  | .mk tag attributes text children =>
    .mk tag attributes (laidText level (.mk tag attributes text children)) (relaidAll (level + 1) children)

def relaidAll (level : Nat) : List Element → List Element
  | [] => []
  | e :: es => relaid level e :: relaidAll level es

end

theorem length_relaidAll (level : Nat) (es : List Element) : (relaidAll level es).length = es.length := by
  induction es with
  | nil => rfl
  | cons e es ih => rw [relaidAll, List.length_cons, ih, List.length_cons]

mutual

theorem All.relaid : ∀ {e : Element}, e.All IsTabular → ∀ level, (e.relaid level).All IsTabular
  | .mk _ _ _ children, .mk he hchildren, level =>
    .mk ⟨he.distinct, (length_relaidAll _ children).trans_lt he.placed⟩
      (@All.relaidAll children hchildren (level + 1))

theorem All.relaidAll : ∀ {es : List Element}, (∀ e ∈ es, e.All IsTabular) → ∀ level,
    ∀ e ∈ relaidAll level es, e.All IsTabular
  | [], _, _ => List.forall_mem_nil _
  | _ :: _, hes, level =>
    have hes := List.forall_mem_cons.1 hes
    List.forall_mem_cons.2 ⟨All.relaid hes.1 level, All.relaidAll hes.2 level⟩

end

theorem lineText_eq {level : Nat} : ∀ {es : List Element} {before : List Char}, '\r' ∉ before →
    lineText level before es = before ++ layout level es.length
  | [], before, hbefore => by
    rw [lineText, textData_nil (by simpa [lineBreak, indent] using hbefore)]
    rfl
  | e :: es, before, hbefore => by
    rw [lineText, textData_nil (by simpa [lineBreak, indent] using hbefore),
      lineText_eq List.not_mem_nil]
    simp [layout, List.replicate_succ]

theorem textRead_eq {e : Element} (hreturn : '\r' ∉ e.text.toList) (level : Nat) :
    e.textRead level = (e.laidText level).toList := by
  rw [textRead, laidText]
  split
  · exact textData_nil hreturn
  · rw [lineText_eq hreturn, String.toList_append, String.toList_ofList]

/-! ## Settled elements -/

/-- **An element that its text keeps**, inside the bindings of its parent: its names are written again as they were, once they
are resolved, its declarations are new, and its data is read as it is written. -/
structure IsFaithful (outer : Scope) (e : Element) : Prop where
  tag : ((e.scope outer).resolve? (.ofString e.tag)).map (e.scope outer).write = some e.tag
  others : ∀ a ∈ e.others, ((e.scope outer).resolveAttribute? (.ofString a.1)).map (e.scope outer).write = some a.1
  declarations : ∀ b ∈ e.declarations, b ∉ outer ∧ b.label ≠ some "xmlns"
  values : ∀ a ∈ e.attributes, isPlainValue a.2 = true
  text : '\r' ∉ e.text.toList

instance (outer : Scope) (e : Element) : Decidable (e.IsFaithful outer) :=
  decidable_of_iff (((e.scope outer).resolve? (.ofString e.tag)).map (e.scope outer).write = some e.tag ∧
      (∀ a ∈ e.others, ((e.scope outer).resolveAttribute? (.ofString a.1)).map (e.scope outer).write = some a.1) ∧
      (∀ b ∈ e.declarations, b ∉ outer ∧ b.label ≠ some "xmlns") ∧ (∀ a ∈ e.attributes, isPlainValue a.2 = true) ∧
      '\r' ∉ e.text.toList)
    ⟨fun h => ⟨h.1, h.2.1, h.2.2.1, h.2.2.2.1, h.2.2.2.2⟩, fun h => ⟨h.tag, h.others, h.declarations, h.values, h.text⟩⟩

/-- **A faithful element that is well-formed**: its names are qualified names, its declarations are proper and stand in front
of its other attributes, no attribute has the name of another, and its text is legal. -/
structure IsSettled (outer : Scope) (e : Element) : Prop extends IsFaithful outer e where
  tagNamed : isQName e.tag = true
  tagLabel : (QName.ofString e.tag).label ≠ "xmlns"
  named : ∀ a ∈ e.others, isQName a.1 = true
  proper : ∀ b ∈ e.declarations, b.IsProper
  attributes : e.attributes = e.declarations.map Binding.attribute ++ e.others
  distinct : (Entries.keys e.attributes).Nodup
  legal : Xml.isLegal e.text.toList = true

/-- **Declarations bind in order**, each label once. -/
theorem tagData?_declarations : ∀ {own more : Scope} {rest : List (String × String)},
    (∀ b ∈ more, b.IsProper) → (∀ b ∈ more, isPlainValue b.uri = true) →
      (((own ++ more).map Binding.attribute).map Prod.fst).Nodup →
        tagData? (more.map Binding.attribute ++ rest) ⟨own, []⟩ = tagData? rest ⟨own ++ more, []⟩
  | own, [], rest, _, _, _ => by rw [List.append_nil]; rfl
  | own, b :: more, rest, hproper, hplain, hnodup => by
    rw [List.forall_mem_cons] at hproper hplain
    have hnew : ∀ c ∈ own, c.label ≠ b.label := fun c hc hlabel => by
      rw [List.map_append, List.map_append] at hnodup
      exact (List.nodup_append.1 hnodup).2.2 _ (List.mem_map_of_mem (List.mem_map_of_mem hc)) _ List.mem_cons_self
        (Binding.attribute_eq_of_label hlabel)
    have hvalue : String.ofList (attributeData b.attribute.2.toList) = b.uri := by
      rw [Binding.attribute_eq, attributeData_of_isPlainValue hplain.1, String.ofList_toList]
    have hadd : TagData.add? ⟨own, []⟩ b.name b.uri = some ⟨own ++ [b], []⟩ := hproper.1.add? hnew
    rw [List.map_cons, List.cons_append, tagData?, hproper.1.ofString_attribute, hvalue, hadd, Option.bind_some,
      tagData?_declarations hproper.2 hplain.2 (by rwa [List.append_assoc]), List.append_assoc]
    rfl

theorem tagData?_others {own : Scope} : ∀ {as : List (String × String)} {found : List (QName × String)},
    (∀ a ∈ as, Binding.ofAttribute? a = none) → (∀ a ∈ as, isPlainValue a.2 = true) →
      tagData? as ⟨own, found⟩ = some ⟨own, found ++ as.map fun a => (.ofString a.1, a.2)⟩
  | [], found, _, _ => by rw [List.map_nil, List.append_nil]; rfl
  | a :: as, found, hnone, hplain => by
    rw [List.forall_mem_cons] at hnone hplain
    have hadd : TagData.add? ⟨own, found⟩ (.ofString a.1) a.2 = some ⟨own, found ++ [(.ofString a.1, a.2)]⟩ := by
      have ha := hnone.1
      unfold Binding.ofAttribute? at ha
      split at ha
      · cases ha
      · rename_i hlabel
        split at ha
        · cases ha
        · rename_i hbase
          rw [TagData.add?, if_neg hlabel, if_neg hbase]
    rw [tagData?, attributeData_of_isPlainValue hplain.1, String.ofList_toList, hadd, Option.bind_some,
      tagData?_others hnone.2 hplain.2, List.append_assoc]
    rfl

/-- **Attributes whose names come back are resolved**, as these are different names. -/
theorem exists_resolveAttributes?_eq {scope : Scope} : ∀ (as : List (String × String)) (done : List (ExpandedName × String)),
    (∀ a ∈ as, (scope.resolveAttribute? (.ofString a.1)).map scope.write = some a.1) →
      (done.map (fun a => scope.write a.1) ++ as.map Prod.fst).Nodup →
        ∃ resolved, resolveAttributes? scope done (as.map fun a => (.ofString a.1, a.2)) = some (done ++ resolved) ∧
          resolved.map (fun a => (scope.write a.1, a.2)) = as
  | [], done, _, _ => ⟨[], by rw [List.append_nil]; rfl, rfl⟩
  | (name, value) :: as, done, hback, hnodup => by
    rw [List.forall_mem_cons] at hback
    obtain ⟨e, he, hwrite⟩ := Option.map_eq_some_iff.1 hback.1
    -- a name that was resolved before is written as it was, and so not as this one
    have hnew : done.any (·.1 == e) = false := by
      rw [List.any_eq_false]
      rintro a ha heq
      refine (List.nodup_append.1 hnodup).2.2 (scope.write a.1) (List.mem_map_of_mem ha) name List.mem_cons_self ?_
      rw [beq_iff_eq.1 heq]
      exact hwrite
    obtain ⟨resolved, hresolved, has⟩ := exists_resolveAttributes?_eq as (done ++ [(e, value)]) hback.2 (by
      rw [List.map_append, List.map_singleton, hwrite, List.append_assoc]
      exact hnodup)
    refine ⟨(e, value) :: resolved, ?_, by rw [List.map_cons, hwrite, has]⟩
    rw [List.map_cons, resolveAttributes?, he]
    simp only [Option.bind_eq_bind, Option.bind_some, hnew, Bool.false_eq_true, if_false]
    rw [hresolved, List.append_assoc]
    rfl

/-- **A settled element opens a frame** whose names are written as they were. -/
theorem IsSettled.exists_frame?_eq {outer : Scope} {e : Element} (he : e.IsSettled outer) : ∃ name resolved,
    e.frame? outer = some ⟨.ofString e.tag, name, resolved, e.scope outer, [], []⟩ ∧
      (e.scope outer).write name = e.tag ∧ resolved.map (fun a => ((e.scope outer).write a.1, a.2)) = e.others := by
  have hdistinct := he.distinct
  rw [Entries.keys, he.attributes, List.map_append] at hdistinct
  have hplain := he.values
  rw [he.attributes, List.forall_mem_append] at hplain
  have hown : tagData? e.attributes .empty = some ⟨e.declarations, e.others.map fun a => (.ofString a.1, a.2)⟩ := by
    have huris : ∀ b ∈ e.declarations, isPlainValue b.uri = true := fun b hb => by
      have hb := hplain.1 _ (List.mem_map_of_mem hb)
      rwa [Binding.attribute_eq] at hb
    have hnone : ∀ a ∈ e.others, Binding.ofAttribute? a = none := fun a ha => by simpa using (List.mem_filter.1 ha).2
    rw [he.attributes, TagData.empty, tagData?_declarations he.proper huris
      (List.nodup_append.1 hdistinct).1, tagData?_others hnone hplain.2]
    rfl
  obtain ⟨name, hname, hwrite⟩ := Option.map_eq_some_iff.1 he.tag
  obtain ⟨resolved, hresolved, hothers⟩ := exists_resolveAttributes?_eq e.others [] he.others
    (List.nodup_append.1 hdistinct).2.1
  rw [List.nil_append] at hresolved
  refine ⟨name, resolved, ?_, hwrite, hothers⟩
  rw [frame?, if_neg he.tagLabel, hown]
  simp only [Option.bind_eq_bind, Option.bind_some]
  rw [show e.declarations.declare outer = e.scope outer from rfl, hresolved, hname]
  rfl

mutual

/-- **Settled elements stand for a node**, whose element they are with the layout in their texts. -/
theorem exists_node?_eq : ∀ {e : Element} {outer : Scope}, e.AllIn IsSettled outer → ∀ level : Nat,
    ∃ n, e.node? outer level = some n ∧ ofNode outer n = e.relaid level
  | .mk tag attributes text children, outer, .mk he hchildren, level => by
    obtain ⟨name, resolved, hframe, htag, hothers⟩ := he.exists_frame?_eq
    obtain ⟨ns, hns, hrelaid⟩ := @exists_nodes?_eq children _ hchildren (level + 1)
    refine ⟨_, by rw [node?, hframe]; simp only [Option.bind_eq_bind, Option.bind_some, hns]; rfl, ?_⟩
    rw [ofNode, htag, hothers, scope, introduced_declare fun b hb => (he.declarations b hb).1, ← he.attributes,
      textRead_eq he.text, String.ofList_toList, ← scope, hrelaid, relaid]
    rfl

theorem exists_nodes?_eq : ∀ {es : List Element} {outer : Scope}, (∀ e ∈ es, e.AllIn IsSettled outer) → ∀ level : Nat,
    ∃ ns, nodes? outer level es = some ns ∧ ofNodes outer ns = relaidAll level es
  | [], _, _, _ => ⟨[], rfl, rfl⟩
  | e :: es, outer, hes, level => by
    rw [List.forall_mem_cons] at hes
    obtain ⟨n, hn, he⟩ := exists_node?_eq hes.1 level
    obtain ⟨ns, hns, hrest⟩ := exists_nodes?_eq hes.2 level
    refine ⟨n :: ns, by rw [nodes?, hn, hns]; rfl, ?_⟩
    rw [ofNodes, he, hrest, relaidAll]

end

mutual

theorem isNamed_of_isSettled : ∀ {e : Element} {outer : Scope}, e.AllIn IsSettled outer → e.isNamed = true
  | .mk tag attributes text children, outer, .mk he hchildren => by
    refine (isNamed_iff _).2 ⟨he.tagNamed, List.all_eq_true.2 fun a ha => ?_, areNamed_of_isSettled hchildren⟩
    rw [he.attributes, List.mem_append] at ha
    rcases ha with ha | ha
    · obtain ⟨b, hb, rfl⟩ := List.mem_map.1 ha
      rw [Binding.attribute_eq]
      exact isQName_written (he.proper b hb).name
    · exact he.named a ha

theorem areNamed_of_isSettled : ∀ {es : List Element} {outer : Scope}, (∀ e ∈ es, e.AllIn IsSettled outer) →
    areNamed es = true
  | [], _, _ => rfl
  | e :: es, outer, hes => by
    rw [List.forall_mem_cons] at hes
    rw [areNamed, isNamed_of_isSettled hes.1, areNamed_of_isSettled hes.2]
    rfl

end

mutual

theorem isLegal_of_isSettled : ∀ {e : Element} {outer : Scope}, e.AllIn IsSettled outer → e.isLegal = true
  | .mk tag attributes text children, outer, .mk he hchildren => by
    have hvalues : attributesLegal attributes = true := List.all_eq_true.2 fun a ha => isLegal_of_isPlainValue (he.values a ha)
    have htext : Xml.isLegal text.toList = true := he.legal
    rw [isLegal, hvalues, htext, @areLegal_of_isSettled children _ hchildren]
    rfl

theorem areLegal_of_isSettled : ∀ {es : List Element} {outer : Scope}, (∀ e ∈ es, e.AllIn IsSettled outer) →
    areLegal es = true
  | [], _, _ => rfl
  | e :: es, outer, hes => by
    rw [List.forall_mem_cons] at hes
    rw [areLegal, isLegal_of_isSettled hes.1, areLegal_of_isSettled hes.2]
    rfl

end

/-- **The text of settled elements is read as these elements**, with the layout in their texts. -/
theorem read_print_of_isSettled {e : Element} (he : e.AllIn IsSettled []) (h : Heap) : read h (Utf8.encode (print e)) =
    .ok (.table ((e.relaid 0).load h).1, ((e.relaid 0).load h).2) := by
  obtain ⟨n, hn, hrelaid⟩ := exists_node?_eq he 0
  rw [read_print (isNamed_of_isSettled he), isLegal_of_isSettled he, if_pos rfl, hn, ← hrelaid]

theorem exists_read_print_of_isSettled {e : Element} (he : e.AllIn IsSettled []) (htabular : e.All IsTabular) (h : Heap) :
    ∃ id h', read h (Utf8.encode (print e)) = .ok (.table id, h') ∧ h.Extends h' ∧
      h'.tree? (.table id) = some (e.relaid 0).tree := by
  refine ⟨_, _, read_print_of_isSettled he h, extends_load _ h, ?_⟩
  rw [tree?_load ((htabular.relaid 0).imp fun _ h => h.placed) (.refl _), tree_kept (htabular.relaid 0)]

end Element
end Xml
end Interchange
