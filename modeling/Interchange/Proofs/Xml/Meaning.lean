import Interchange.Proofs.Xml.Descent
/-!
# Meaning — names read in the scopes of records

Records say what the scopes of the document were: the scope that the declarations along a line of records build binds
every label that is bound in the document, to the same namespace, and leaves the default free where it is
(`Descent.agrees`).  So the tag of a record means the name of the element, whichever label it was written with.  This takes
elements that bind the default to one namespace, and attributes that do not take the name of a declaration.
-/
namespace Interchange
namespace Xml

/-! ## Labels -/

theorem Binding.IsProper.label_eq {b c : Binding} (hb : b.IsProper) (hc : c.IsProper) (h : b.attribute.1 = c.attribute.1) :
    b.label = c.label := by
  have hname : b.name = c.name := by rw [← hb.ofString_attribute, h, hc.ofString_attribute]
  obtain ⟨_ | label, uri⟩ := b <;> obtain ⟨_ | label', uri'⟩ := c <;> simp_all [Binding.name]

/-- A name that is no default declares its base, if anything. -/
theorem Binding.of_ofAttribute?_written {q : QName} (hq : q.IsProper) (hbase : q.base ≠ "xmlns") {value : String}
    {d : Binding} (h : ofAttribute? (q.written, value) = some d) : d.label = some q.base ∧ d.attribute.1 = q.written := by
  rw [ofAttribute?, QName.ofString_written hq, if_neg hbase] at h
  split at h
  · rename_i hlabel
    cases h
    refine ⟨rfl, ?_⟩
    rw [attribute_eq, Binding.name, ← hlabel]
  · cases h

namespace Scope

variable {scope : Scope} {name : ExpandedName}

theorem of_resolve?_eq_some {q : QName} (h : scope.resolve? q = some name) :
    (name.space = none ∧ scope.binding? none = none) ∨ ∃ b ∈ scope, name.space = some b.uri := by
  unfold resolve? at h
  split at h
  · cases h
    cases hdefault : scope.binding? none with
    | none => exact .inl ⟨rfl, rfl⟩
    | some b => exact .inr ⟨b, (of_binding?_eq_some hdefault).1, rfl⟩
  · obtain ⟨b, hb, rfl⟩ := Option.map_eq_some_iff.1 h
    exact .inr ⟨b, (of_binding?_eq_some hb).1, rfl⟩

/-- **The name that a written one means**: by the binding of its label or the default, the label `xml` being bound to its own
namespace everywhere. -/
def denote? (scope : Scope) (q : QName) : Option ExpandedName :=
  if q.label = "xml" then some ⟨some xmlUri, q.base⟩ else scope.resolve? q

theorem denote?_of_binding? {b : Binding} (hb : b.IsProper) (hfound : scope.binding? b.label = some b) (base : String) :
    scope.denote? ⟨b.label.getD "", base⟩ = some ⟨some b.uri, base⟩ := by
  obtain ⟨_ | label, uri⟩ := b
  · simp [denote?, resolve?, hfound]
  · obtain ⟨hlabel, hxml⟩ := hb.label label rfl
    simp [denote?, resolve?, hfound, hxml, ne_empty_of_isNCName hlabel]

/-- **What a scope binds another binds as well**, and what leaves the default free in one leaves it free in the other. -/
structure Agrees (scope source : Scope) : Prop where
  bound : ∀ b, source.binding? b.label = some b → scope.binding? b.label = some b
  free : source.binding? none = none → scope.binding? none = none

/-- A label means one binding, the default too. -/
def IsFunctional (scope : Scope) : Prop := ∀ b ∈ scope, ∀ c ∈ scope, b.label = c.label → b = c

theorem IsFunctional.binding?_eq_some (hscope : scope.IsFunctional) {b : Binding} (hb : b ∈ scope) :
    scope.binding? b.label = some b := Scope.binding?_eq_some hb fun c hc hlabel => hscope c hc b hb hlabel

/-- **A name means in a scope what it was written for in another.** -/
theorem Agrees.denote?_write {source : Scope} (hagrees : scope.Agrees source) (hsource : source.IsFunctional)
    (hproper : ∀ b ∈ source, b.IsProper) (hname : isNCName name.base = true)
    (hresolved : ∃ q, source.resolve? q = some name) : scope.denote? (.ofString (source.write name)) = some name := by
  obtain ⟨q, hq⟩ := hresolved
  obtain ⟨space, base⟩ := name
  rw [ofString_write hproper hname]
  rcases of_resolve?_eq_some hq with ⟨rfl : space = none, hfree⟩ | ⟨b, hb, rfl : space = some b.uri⟩
  · simp [writtenName, denote?, resolve?, hagrees.free hfree]
  · have hlabel : ∃ d ∈ source, d.uri = b.uri ∧ source.labelOf? b.uri = d.label := by
      cases hfound : source.find? (·.uri == b.uri) with
      | none => simpa using List.find?_eq_none.1 hfound b hb
      | some d =>
        refine ⟨d, List.mem_of_find?_eq_some hfound, by simpa using List.find?_some hfound, ?_⟩
        rw [labelOf?, if_neg (hproper b hb).uri.1, hfound]
        rfl
    obtain ⟨d, hd, huri, hlabel⟩ := hlabel
    have hmeant := denote?_of_binding? (hproper d hd) (hagrees.bound d (hsource.binding?_eq_some hd)) base
    rw [huri] at hmeant
    rw [← hmeant, writtenName, Option.bind_some, hlabel]

end Scope

/-! ## Lines of records -/

/-- **An element with clear declarations**: the default is bound to one namespace, and no attribute takes the name of a
declaration in scope. -/
structure Node.IsClear (m : Node) : Prop where
  default : ∀ b ∈ m.scope, ∀ c ∈ m.scope, b.label = none → c.label = none → b = c
  attributes : ∀ a ∈ m.attributes, ∀ b ∈ m.scope, m.scope.write a.1 ≠ b.attribute.1

instance : DecidablePred Node.IsClear := fun m =>
  decidable_of_iff ((∀ b ∈ m.scope, ∀ c ∈ m.scope, b.label = none → c.label = none → b = c) ∧
    ∀ a ∈ m.attributes, ∀ b ∈ m.scope, m.scope.write a.1 ≠ b.attribute.1) ⟨fun h => ⟨h.1, h.2⟩, fun h => ⟨h.1, h.2⟩⟩

namespace IsRecordOf

variable {outer : Scope} {m : Node} {c : Element}

theorem isFunctional (h : IsRecordOf outer m c) (hclear : m.IsClear) : m.scope.IsFunctional := by
  intro b hb d hd hlabel
  by_cases hnone : b.label = none
  · exact hclear.default b hb d hd hnone (hlabel ▸ hnone)
  · exact h.isLabelled b hb d hd hlabel hnone

theorem eq_of_attribute (h : IsRecordOf outer m c) (hclear : m.IsClear) {b d : Binding} (hb : b ∈ m.scope)
    (hd : d ∈ m.scope) (hname : b.attribute.1 = d.attribute.1) : b = d :=
  h.isFunctional hclear b hb d hd ((h.proper b hb).label_eq (h.proper d hd) hname)

/-- **What a record declares** its element introduces, or nothing in scope has the label. -/
theorem of_mem_declarations (h : IsRecordOf outer m c) (hclear : m.IsClear) {d : Binding} (hd : d ∈ c.declarations) :
    d ∈ introduced outer m.scope ∨ (d.label ≠ none ∧ ∀ b ∈ m.scope, b.label ≠ d.label) := by
  obtain ⟨a, ha, hdeclares⟩ := List.mem_filterMap.1 hd
  rw [h.attributes] at ha
  rcases List.mem_append.1 (Entries.mem_of_mem_ofList ha) with ha | ha
  · obtain ⟨b, hb, rfl⟩ := List.mem_map.1 ha
    rw [(h.proper b (List.mem_filter.1 hb).1).ofAttribute?_attribute] at hdeclares
    cases hdeclares
    exact .inl hb
  · obtain ⟨a', ha', rfl⟩ := List.mem_map.1 ha
    obtain ⟨hbase, hne⟩ := h.attributeBase a' ha'
    rw [Scope.write_eq_written] at hdeclares
    obtain ⟨hlabel, hname⟩ := Binding.of_ofAttribute?_written (Scope.isProper_writtenName h.proper hbase) hne hdeclares
    refine .inr ⟨by simp [hlabel], fun b hb hsame => hclear.attributes a' ha' b hb ?_⟩
    rw [Scope.write_eq_written, ← hname, Binding.attribute_eq_of_label hsame]

theorem mem_declarations (h : IsRecordOf outer m c) (hclear : m.IsClear) {b : Binding} (hb : b ∈ introduced outer m.scope) :
    b ∈ c.declarations := by
  have hscope : b ∈ m.scope := (List.mem_filter.1 hb).1
  have hattribute : b.attribute ∈ c.attributes := by
    rw [h.attributes]
    refine Entries.mem_ofList (List.mem_append_left _ (List.mem_map_of_mem hb)) fun q hq hname => ?_
    rcases List.mem_append.1 hq with hq | hq
    · obtain ⟨d, hd, rfl⟩ := List.mem_map.1 hq
      rw [h.eq_of_attribute hclear (List.mem_filter.1 hd).1 hscope hname]
    · obtain ⟨a, ha, rfl⟩ := List.mem_map.1 hq
      exact absurd hname (hclear.attributes a ha b hscope)
  exact List.mem_filterMap.2 ⟨_, hattribute, (h.proper b hscope).ofAttribute?_attribute⟩

/-- **A record lays its declarations over an outer scope as its element does.** -/
theorem agrees (h : IsRecordOf outer m c) (hclear : m.IsClear) (houter : outer.IsFunctional) {built : Scope}
    (hbuilt : built.Agrees outer) : (c.scope built).Agrees m.scope where
  bound b hb := by
    have hscope : b ∈ m.scope := (Scope.of_binding?_eq_some hb).1
    rw [Element.scope, Scope.binding?_declare]
    -- an inherited binding is not declared again, and no other declaration has its label
    by_cases hin : b ∈ outer
    · have hnone : c.declarations.binding? b.label = none := by
        refine Scope.binding?_eq_none_iff.2 fun d hd hlabel => ?_
        rcases h.of_mem_declarations hclear hd with hintro | ⟨-, hfree⟩
        · obtain ⟨hd, hnew⟩ := List.mem_filter.1 hintro
          obtain rfl := h.isFunctional hclear d hd b hscope hlabel
          simp [hin] at hnew
        · exact hfree b hscope hlabel.symm
      rw [hnone, Option.none_or]
      exact hbuilt.bound b (houter.binding?_eq_some hin)
    · have hintro : b ∈ introduced outer m.scope := List.mem_filter.2 ⟨hscope, by simpa using hin⟩
      have hsome : c.declarations.binding? b.label = some b := by
        refine Scope.binding?_eq_some (h.mem_declarations hclear hintro) fun d hd hlabel => ?_
        rcases h.of_mem_declarations hclear hd with hintro | ⟨-, hfree⟩
        · exact h.isFunctional hclear d (List.mem_filter.1 hintro).1 b hscope hlabel
        · exact absurd hlabel.symm (hfree b hscope)
      rw [hsome]
      rfl
  free hfree := by
    have houterFree : outer.binding? none = none := by
      cases h.nested with
      | mk hscope _ _ _ _ =>
        obtain ⟨own, hown⟩ := hscope
        rw [hown, Scope.binding?_declare, Option.or_eq_none_iff] at hfree
        exact hfree.2
    rw [Element.scope, Scope.binding?_declare, hbuilt.free houterFree, Option.or_none]
    refine Scope.binding?_eq_none_iff.2 fun d hd hlabel => ?_
    rcases h.of_mem_declarations hclear hd with hintro | ⟨hne, -⟩
    · exact Scope.binding?_eq_none_iff.1 hfree d (List.mem_filter.1 hintro).1 hlabel
    · exact hne hlabel

theorem denote?_tag (h : IsRecordOf outer m c) (hclear : m.IsClear) {built : Scope} (hbuilt : built.Agrees m.scope) :
    built.denote? (.ofString c.tag) = some m.name := by
  rw [h.tag]
  exact hbuilt.denote?_write (h.isFunctional hclear) h.proper h.base h.resolved

end IsRecordOf

/-- **Along a line of clear elements, the records build the scope of the document.**  The induction is on the line: the scope
of the parent is simulated before the declarations of the element are laid over it. -/
theorem Descent.agrees {n : Node} {e : Element} (he : IsRecordOf [] n e) {ps : List (Node × Element)}
    (hline : Descent n e ps) (hclear : ∀ p ∈ ps, p.1.IsClear) : (recordScope ps).Agrees (sourceScope ps) := by
  induction hline with
  | root => exact he.agrees (hclear _ List.mem_cons_self) nofun ⟨fun _ h => h, fun h => h⟩
  | child hline hp ih =>
    obtain ⟨hp', hclear⟩ := List.forall_mem_cons.1 hclear
    have hq := hline.isRecordOf he _ _ rfl
    exact (hq.child hp).agrees hp' (hq.isFunctional (hclear _ List.mem_cons_self)) (ih hclear)

/-- **Tags mean the names of the document.**  What is read is one record, with a record for every element inside it, and the
tag of each, resolved in the scope that it builds with the records around it, is the name of its element, as far as
these elements have clear declarations. -/
theorem denote?_tag_of_read_ok {h h₁ : Heap} {input : List UInt8} {v : Value} (hok : read h input = .ok (v, h₁))
    (hsize : h₁.size < 2 ^ 63) : ∃ n root e, Node.ofOctets? input = some n ∧ v = .table root ∧
      (∀ e' : Element, e'.IsOf h₁ root ↔ e' = e) ∧ ∀ m c ps, Descent n e ((m, c) :: ps) →
        m.children.length = c.children.length ∧ ((∀ p ∈ (m, c) :: ps, p.1.IsClear) →
          (recordScope ((m, c) :: ps)).denote? (.ofString c.tag) = some m.name) := by
  obtain ⟨n, root, e, hn, hroot, hunique, he⟩ := exists_isRecordOf_of_read_ok hok hsize
  refine ⟨n, root, e, hn, hroot, hunique, fun m c ps hline => ?_⟩
  have hrecord : IsRecordOf (sourceScope ps) m c := hline.isRecordOf he _ _ rfl
  refine ⟨by rw [hrecord.children, List.length_map], fun hclear => ?_⟩
  exact hrecord.denote?_tag (hclear _ List.mem_cons_self) (hline.agrees he hclear)

/-- A namespace with two labels, one of them bound again inside, and a default that is taken back. -/
def shadowed : String :=
  "<q:a xmlns:p=\"u\" xmlns:q=\"u\" xmlns=\"v\"><b xmlns:p=\"w\"><p:c xmlns=\"\"/></b></q:a>"

theorem denote?_tag_of_read_ok_shadowed : ∃ h₁ root n e ps,
    read .empty (Utf8.encode shadowed.toList) = .ok (.table root, h₁) ∧ e.IsOf h₁ root ∧ Descent n e ps ∧
      ps.map (fun p => p.2.tag) = ["p:c", "b", "p:a"] ∧
      ps.map (fun p => p.1.name) = [⟨some "w", "c"⟩, ⟨some "v", "b"⟩, ⟨some "u", "a"⟩] ∧
      (recordScope ps).denote? (.ofString "p:c") = some ⟨some "w", "c"⟩ := by
  have hdocument : ((Markup.ofText? shadowed.toList).bind Node.ofMarkup?).any (fun n =>
      (n.children.zip (Element.ofNode [] n).kept.children).any fun q =>
        (q.1.children.zip q.2.children).any fun p =>
          decide ((∀ r ∈ [p, q, (n, (Element.ofNode [] n).kept)], r.1.IsClear) ∧ (Element.ofNode [] n).count = 3 ∧
            [p, q, (n, (Element.ofNode [] n).kept)].map (fun r => r.2.tag) = ["p:c", "b", "p:a"] ∧
            [p, q, (n, (Element.ofNode [] n).kept)].map (fun r => r.1.name) =
              [⟨some "w", "c"⟩, ⟨some "v", "b"⟩, ⟨some "u", "a"⟩])) = true := by
    decide +kernel
  obtain ⟨n, hn, hfacts⟩ := (Option.any_eq_true _ _).1 hdocument
  obtain ⟨q, hq, hfacts⟩ := List.any_eq_true.1 hfacts
  obtain ⟨p, hp, hfacts⟩ := List.any_eq_true.1 hfacts
  obtain ⟨hclear, hcount, htags, hnames⟩ := of_decide_eq_true hfacts
  obtain ⟨hoctets, hok, hof⟩ := read_of_ofMarkup? hn .empty
  have hsize : ((Element.ofNode [] n).load .empty).2.size < 2 ^ 63 := by rw [Element.size_load, hcount]; decide
  obtain ⟨n', root', e', hn', hroot, hunique, htag⟩ := denote?_tag_of_read_ok hok hsize
  cases hroot
  obtain rfl := Option.some.inj (hoctets.symm.trans hn')
  obtain rfl := (hunique _).1 hof
  have hline : Descent n (Element.ofNode [] n).kept [p, q, (n, (Element.ofNode [] n).kept)] := .child (.child .root hq) hp
  have hmeant := (htag p.1 p.2 _ hline).2 hclear
  have htag' : p.2.tag = "p:c" := (List.cons.inj htags).1
  have hname' : p.1.name = ⟨some "w", "c"⟩ := (List.cons.inj hnames).1
  rw [htag', hname'] at hmeant
  exact ⟨_, _, _, _, _, hok, hof, hline, htags, hnames, hmeant⟩

/-- **Whether tags mean the names of a document**, in all its elements. -/
def KeepsNames (input : List UInt8) : Prop := ∀ h₁ root n e, read .empty input = .ok (.table root, h₁) →
  Node.ofOctets? input = some n → e.IsOf h₁ root → ∀ m c ps, Descent n e ((m, c) :: ps) →
    (recordScope ((m, c) :: ps)).denote? (.ofString c.tag) = some m.name

theorem not_keepsNames_of_descent {cs : List Char} {n : Node} (hn : (Markup.ofText? cs).bind Node.ofMarkup? = some n)
    {p : Node × Element} {ps : List (Node × Element)} (hline : Descent n (Element.ofNode [] n).kept (p :: ps))
    (hne : (recordScope (p :: ps)).denote? (.ofString p.2.tag) ≠ some p.1.name) : ¬ KeepsNames (Utf8.encode cs) := by
  obtain ⟨hoctets, hok, hof⟩ := read_of_ofMarkup? hn .empty
  exact fun hkeeps => hne (hkeeps _ _ _ _ hok hoctets hof _ _ _ hline)

/-- **Names that are lost**: a default that one tag declares twice, and an attribute that is written as a declaration, as its
namespace is that of a label `xmlns`. -/
theorem not_keepsNames_documents :
    ¬ KeepsNames (Utf8.encode "<a xmlns=\"u\" xmlns=\"v\"/>".toList) ∧
    ¬ KeepsNames (Utf8.encode "<p:a xmlns:xmlns=\"u\" xmlns:q=\"v\" xmlns:p=\"u\" p:q=\"w\"><q:b/></p:a>".toList) := by
  constructor
  · have hdocument : ((Markup.ofText? "<a xmlns=\"u\" xmlns=\"v\"/>".toList).bind Node.ofMarkup?).any (fun n =>
        decide ((recordScope [(n, (Element.ofNode [] n).kept)]).denote? (.ofString (Element.ofNode [] n).kept.tag) ≠
          some n.name)) = true := by
      decide +kernel
    obtain ⟨n, hn, hne⟩ := (Option.any_eq_true _ _).1 hdocument
    exact not_keepsNames_of_descent hn .root (of_decide_eq_true hne)
  · have hdocument : ((Markup.ofText?
        "<p:a xmlns:xmlns=\"u\" xmlns:q=\"v\" xmlns:p=\"u\" p:q=\"w\"><q:b/></p:a>".toList).bind Node.ofMarkup?).any
        (fun n => (n.children.zip (Element.ofNode [] n).kept.children).any fun p =>
          decide ((recordScope [p, (n, (Element.ofNode [] n).kept)]).denote? (.ofString p.2.tag) ≠ some p.1.name)) = true := by
      decide +kernel
    obtain ⟨n, hn, hfacts⟩ := (Option.any_eq_true _ _).1 hdocument
    obtain ⟨p, hp, hne⟩ := List.any_eq_true.1 hfacts
    exact not_keepsNames_of_descent hn (.child .root hp) (of_decide_eq_true hne)

end Xml
end Interchange
