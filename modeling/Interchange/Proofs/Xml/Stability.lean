import Interchange.Proofs.Alike
import Interchange.Proofs.Xml.Resolving
/-!
# Stability — records that are written and read again

A record that was read can be written, and its element is well-formed.  If it is faithful, its text is read as the record
again, with the layout in the texts that stand beside children (`exists_read_print_of_read_ok`).  Otherwise the text may be
read as another record, or be no markup at all (`not_isStable_documents`).
-/
namespace Interchange
namespace Xml

/-! ## Elements of nodes -/

/-- An attribute that a node has for a binding. -/
def IsDeclaration (a : String × String) : Prop := ∃ b : Binding, b.IsProper ∧ a = b.attribute

/-- An attribute whose name was written and declares nothing. -/
def IsOther (a : String × String) : Prop :=
  ∃ q : QName, q.IsProper ∧ a.1 = q.written ∧ q.label ≠ "xmlns" ∧ q.base ≠ "xmlns"

theorem IsOther.ofAttribute?_eq_none {a : String × String} (ha : IsOther a) : Binding.ofAttribute? a = none := by
  obtain ⟨q, hq, hname, hlabel, hbase⟩ := ha
  rw [Binding.ofAttribute?, hname, QName.ofString_written hq, if_neg hlabel, if_neg hbase]

theorem IsDeclaration.name_ne {a c : String × String} (ha : IsDeclaration a) (hc : IsOther c) : a.1 ≠ c.1 := by
  obtain ⟨b, hb, rfl⟩ := ha
  obtain ⟨q, hq, hname, hlabel, hbase⟩ := hc
  intro hsame
  have hq' : b.name = q := by rw [← hb.ofString_attribute, hsame, hname, QName.ofString_written hq]
  subst hq'
  obtain ⟨_ | label, uri⟩ := b
  · exact hbase rfl
  · exact hlabel rfl

theorem map_attribute_filterMap : ∀ {as : List (String × String)}, (∀ a ∈ as, IsDeclaration a) →
    (as.filterMap Binding.ofAttribute?).map Binding.attribute = as ∧ ∀ b ∈ as.filterMap Binding.ofAttribute?, b.IsProper
  | [], _ => ⟨rfl, List.forall_mem_nil _⟩
  | a :: as, has => by
    rw [List.forall_mem_cons] at has
    obtain ⟨⟨b, hb, rfl⟩, has⟩ := has
    obtain ⟨hmap, hproper⟩ := map_attribute_filterMap has
    rw [List.filterMap_cons_some hb.ofAttribute?_attribute, List.map_cons, hmap]
    exact ⟨rfl, List.forall_mem_cons.2 ⟨hb, hproper⟩⟩

namespace Element

/-- **Declarations in front of other attributes are the declarations of the element.** -/
theorem declarations_append {e : Element} {own more : List (String × String)} (hattributes : e.attributes = own ++ more)
    (hown : ∀ a ∈ own, IsDeclaration a) (hmore : ∀ a ∈ more, IsOther a) :
    e.declarations = own.filterMap Binding.ofAttribute? ∧ e.others = more := by
  have hnone : ∀ a ∈ more, Binding.ofAttribute? a = none := fun a ha => (hmore a ha).ofAttribute?_eq_none
  rw [declarations, others, hattributes, List.filterMap_append, List.filterMap_eq_nil_iff.2 hnone, List.filter_append]
  refine ⟨List.append_nil _, ?_⟩
  rw [List.filter_eq_nil_iff.2 fun a ha => ?_, List.nil_append]
  · exact List.filter_eq_self.2 fun a ha => by rw [hnone a ha]; rfl
  · obtain ⟨b, hb, rfl⟩ := hown a ha
    rw [hb.ofAttribute?_attribute]
    exact Bool.false_ne_true

/-- **A faithful element is well-formed** if its attributes are declarations set before other attributes with names that
were written. -/
theorem IsFaithful.isSettled {outer : Scope} {e : Element} (he : e.IsFaithful outer)
    (htag : ∃ q : QName, q.IsProper ∧ e.tag = q.written ∧ q.label ≠ "xmlns") {own more : List (String × String)}
    (hattributes : e.attributes = Entries.ofList (own ++ more)) (hown : ∀ a ∈ own, IsDeclaration a)
    (hmore : ∀ a ∈ more, IsOther a) (hlegal : Xml.isLegal e.text.toList = true) : e.IsSettled outer := by
  have hapart : ∀ k ∈ Entries.keys more, k ∉ Entries.keys own := fun k hk hk' => by
    obtain ⟨c, hc, rfl⟩ := List.mem_map.1 hk
    obtain ⟨a, ha, hac⟩ := List.mem_map.1 hk'
    exact (hown a ha).name_ne (hmore c hc) hac
  have hown' : ∀ a ∈ Entries.ofList own, IsDeclaration a := fun a ha => hown a (Entries.mem_of_mem_ofList ha)
  have hmore' : ∀ a ∈ Entries.ofList more, IsOther a := fun a ha => hmore a (Entries.mem_of_mem_ofList ha)
  have hsplit : e.attributes = Entries.ofList own ++ Entries.ofList more := by rw [hattributes, Entries.ofList_append hapart]
  obtain ⟨hdeclarations, hothers⟩ := declarations_append hsplit hown' hmore'
  obtain ⟨hmap, hproper⟩ := map_attribute_filterMap hown'
  obtain ⟨q, hq, htag, hlabel⟩ := htag
  refine { he with tagNamed := ?_, tagLabel := ?_, named := ?_, proper := ?_, attributes := ?_, distinct := ?_, legal := hlegal }
  · rw [htag]
    exact isQName_written hq
  · rwa [htag, QName.ofString_written hq]
  · intro a ha
    rw [hothers] at ha
    obtain ⟨q, hq, hname, -⟩ := hmore' a ha
    rw [hname]
    exact isQName_written hq
  · rwa [hdeclarations]
  · rw [hdeclarations, hmap, hothers, hsplit]
  · rw [hattributes]
    exact Entries.nodup_keys_ofList

/-- **No label in scope is that of declarations**, if none is outside and the element is faithful: such a binding would be an
attribute of it. -/
theorem label_ne_of_isFaithful {name : ExpandedName} {attributes : List (ExpandedName × String)} {scope outer outer' : Scope}
    {text : List Char} {children : List Node} (houter : ∀ b ∈ outer, b.label ≠ some "xmlns")
    (he : (ofNode outer (.mk name attributes scope text children)).kept.IsFaithful outer') :
    ∀ b ∈ scope, b.label ≠ some "xmlns" := by
  intro b hb hlabel
  by_cases hin : b ∈ outer
  · exact houter b hin hlabel
  · have hnew : b.attribute ∈ (introduced outer scope).map Binding.attribute :=
      List.mem_map_of_mem (List.mem_filter.2 ⟨hb, by simpa using hin⟩)
    have hkey : b.attribute.1 ∈ Entries.keys (ofNode outer (.mk name attributes scope text children)).kept.attributes :=
      Entries.mem_keys_ofList.2 (List.mem_map_of_mem (List.mem_append_left _ hnew))
    obtain ⟨a, ha, hname⟩ := List.mem_map.1 hkey
    have hdeclares : Binding.ofAttribute? a = some ⟨some "xmlns", a.2⟩ := by
      rw [Binding.ofAttribute?, hname, Binding.attribute_eq, Binding.name, hlabel]
      rw [QName.ofString_written ⟨isNCName_xmlns, .inr isNCName_xmlns⟩]
      rfl
    exact (he.declarations _ (List.mem_filterMap.2 ⟨a, ha, hdeclares⟩)).2 rfl

theorem label_ne_of_write {scope : Scope} (hscope : ∀ b ∈ scope, b.label ≠ some "xmlns") {label : String}
    (hlabel : label = "" ∨ label = "xml" ∨ ∃ b ∈ scope, b.label = some label) : label ≠ "xmlns" := by
  rintro rfl
  rcases hlabel with h | h | ⟨b, hb, h⟩
  · exact absurd h (by decide)
  · exact absurd h (by decide)
  · exact hscope b hb h

/-- **What a record keeps of a node that was read is well-formed**, if it is faithful. -/
theorem isSettled_kept_ofNode {n : Node} (hn : n.IsParsed) {outer outer' : Scope}
    (houter : ∀ b ∈ outer, b.label ≠ some "xmlns") (he : (ofNode outer n).kept.IsFaithful outer') :
    (ofNode outer n).kept.IsSettled outer' := by
  obtain ⟨name, attributes, scope, text, children⟩ := n
  have hlabel := label_ne_of_isFaithful houter he
  cases hn with
  | mk hname hattributes hscope htext _ =>
    refine he.isSettled ?_ rfl (fun a ha => ?_) (fun a ha => ?_) ?_
    · obtain ⟨q, hq, hwrite, -, hq'⟩ := Scope.exists_write_eq hscope hname
      exact ⟨q, hq, hwrite, label_ne_of_write hlabel hq'⟩
    · obtain ⟨b, hb, rfl⟩ := List.mem_map.1 ha
      exact ⟨b, hscope b (List.mem_filter.1 hb).1, rfl⟩
    · obtain ⟨a', ha', rfl⟩ := List.mem_map.1 ha
      obtain ⟨hbase, hne⟩ := hattributes a' ha'
      obtain ⟨q, hq, hwrite, hbase', hq'⟩ := Scope.exists_write_eq hscope hbase
      exact ⟨q, hq, hwrite, label_ne_of_write hlabel hq', by rwa [hbase']⟩
    · show Xml.isLegal (if isBlankText (String.ofList text) then "" else String.ofList text).toList = true
      cases isBlankText (String.ofList text) with
      | true => rfl
      | false => rwa [if_neg Bool.false_ne_true, String.toList_ofList]

mutual

theorem allIn_isSettled_kept : ∀ {n : Node} {outer outer' : Scope}, n.IsParsed → (∀ b ∈ outer, b.label ≠ some "xmlns") →
    (ofNode outer n).kept.AllIn IsFaithful outer' → (ofNode outer n).kept.AllIn IsSettled outer'
  | .mk name attributes scope text children, outer, outer', hn, houter, .mk he hchildren => by
    -- the scope of the node and that of its attributes may differ, so both are carried
    refine .mk (isSettled_kept_ofNode hn houter he) fun c hc => ?_
    cases hn with
    | mk _ _ _ _ hparsed =>
      obtain ⟨k, hk⟩ := Entries.mem_of_mem_sequence hc
      have hc' : c ∈ keptAll (ofNodes scope children) := by
        rw [← Entries.map_snd_numbered (keptAll (ofNodes scope children))]
        exact List.mem_map_of_mem (Entries.mem_of_mem_ofList hk)
      exact allIn_isSettled_keptAll hparsed (label_ne_of_isFaithful houter he) c hc' (hchildren c hc)

theorem allIn_isSettled_keptAll : ∀ {ns : List Node} {outer outer' : Scope}, (∀ n ∈ ns, n.IsParsed) →
    (∀ b ∈ outer, b.label ≠ some "xmlns") → ∀ c ∈ keptAll (ofNodes outer ns), c.AllIn IsFaithful outer' →
      c.AllIn IsSettled outer'
  | [], _, _, _, _ => List.forall_mem_nil _
  | _ :: _, _, _, hns, houter =>
    have hns := List.forall_mem_cons.1 hns
    List.forall_mem_cons.2 ⟨allIn_isSettled_kept hns.1 houter, allIn_isSettled_keptAll hns.2 houter⟩

end

/-! ## Elements without text beside children -/

/-- An element that holds only text or only children. -/
def IsUnmixed (e : Element) : Prop := e.text = "" ∨ e.children = []

instance : DecidablePred IsUnmixed := fun e =>
  decidable_of_iff (e.text = "" ∨ e.children.isEmpty = true) (by rw [IsUnmixed, List.isEmpty_iff])

theorem isBlankText_layout (level count : Nat) : isBlankText (String.ofList (layout level count)) = true := by
  have hline : ∀ n, ∀ c ∈ lineBreak n, isWhiteSpace c = true := fun n c hc => by
    rcases List.mem_cons.1 hc with rfl | hc
    · decide
    · rw [List.eq_of_mem_replicate hc]
      decide
  rw [isBlankText, String.toList_ofList, List.all_eq_true]
  intro c hc
  rcases List.mem_append.1 hc with hc | hc
  · obtain ⟨cs, hcs, hc⟩ := List.mem_flatten.1 hc
    rw [List.eq_of_mem_replicate hcs] at hc
    exact hline _ c hc
  · exact hline _ c hc

theorem tree_eq_of_text {tag text text' : String} {attributes : List (String × String)} {children children' : List Element}
    (htext : text = text' ∨ isBlankText text = true ∧ isBlankText text' = true) (hchildren : trees children = trees children') :
    (mk tag attributes text children).tree = (mk tag attributes text' children').tree := by
  rw [tree, tree, hchildren]
  rcases htext with rfl | ⟨h, h'⟩
  · rfl
  · rw [h, h']
    rfl

mutual

/-- **Layout alone is no text.** -/
theorem tree_relaid : ∀ {e : Element}, e.All IsUnmixed → ∀ level, (e.relaid level).tree = e.tree
  | .mk tag attributes text children, .mk he hchildren, level => by
    rw [relaid]
    refine tree_eq_of_text ?_ (@trees_relaidAll children hchildren (level + 1))
    rcases he with (rfl : text = "") | (rfl : children = [])
    · rw [laidText]
      split
      · exact .inl rfl
      · refine .inr ⟨?_, rfl⟩
        rw [show (mk tag attributes "" children).text = "" from rfl, String.empty_append]
        exact isBlankText_layout _ _
    · exact .inl rfl

theorem trees_relaidAll : ∀ {es : List Element}, (∀ e ∈ es, e.All IsUnmixed) → ∀ level,
    trees (relaidAll level es) = trees es
  | [], _, _ => rfl
  | e :: es, hes, level => by
    rw [List.forall_mem_cons] at hes
    rw [relaidAll, trees, tree_relaid hes.1, trees_relaidAll hes.2, trees]

end

mutual

theorem isNumeric_tree : ∀ e : Element, e.tree.IsNumeric
  | .mk tag attributes text children => by
    have hstring : ∀ s, (Tree.string s).IsNumeric := fun s => .leaf rfl nofun
    have hattributes : (Tree.table (attributes.map fun a => (.string a.1, .string a.2))).IsNumeric := .table fun p hp => by
      obtain ⟨a, -, rfl⟩ := List.mem_map.1 hp
      exact hstring a.2
    have hchildren : (Tree.table (Entries.numbered (trees children))).IsNumeric := .table fun p hp => by
      have hp : p.2 ∈ (Entries.numbered (trees children)).map Prod.snd := List.mem_map_of_mem hp
      rw [Entries.map_snd_numbered] at hp
      exact isNumeric_trees children _ hp
    rw [tree]
    refine .table (List.forall_mem_append.2 ⟨List.forall_mem_append.2 ⟨?_, ?_⟩, List.forall_mem_singleton.2 hchildren⟩)
    · exact List.forall_mem_cons.2 ⟨hstring tag, List.forall_mem_singleton.2 hattributes⟩
    · cases isBlankText text with
      | true => exact List.forall_mem_nil _
      | false => exact List.forall_mem_singleton.2 (hstring text)

theorem isNumeric_trees : ∀ es : List Element, ∀ t ∈ trees es, t.IsNumeric
  | [], _, ht => nomatch ht
  | e :: es, t, ht => by
    rcases List.mem_cons.1 ht with rfl | ht
    · exact isNumeric_tree e
    · exact isNumeric_trees es t ht

end

/-! ## Written and read again -/

theorem ofRecord_of_isParsed {n : Node} (hn : n.IsParsed) (h : Heap) {options : Options} (hd : options.maxDepth = none) :
    ofRecord ((ofNode [] n).load h).2 options ((ofNode [] n).load h).1 = .ok (ofNode [] n).kept :=
  ofRecord_load (all_ofNode (P := fun e => e.tag ≠ "") tag_ofNode_ne_empty n [] hn) (.refl _) hd

end Element

/-- The element of a document. -/
def element? (cs : List Char) : Option Element := ((Markup.ofText? cs).bind Node.ofMarkup?).map (Element.ofNode [])

theorem read_of_element? {cs : List Char} {e : Element} (he : element? cs = some e) (h : Heap) :
    read h (Utf8.encode cs) = .ok (.table (e.load h).1, (e.load h).2) := by
  obtain ⟨n, hn, rfl⟩ := Option.map_eq_some_iff.1 he
  have hne : cs ≠ [] := by rintro rfl; cases hn
  rw [read_encode hne, hn]

theorem read_of_element?_eq_none {cs : List Char} (hne : cs ≠ []) (he : element? cs = none) (h : Heap) :
    read h (Utf8.encode cs) = .error (.badSyntax .xml .grammar) := by
  rw [read_encode hne, Option.map_eq_none_iff.1 he]

/-- **A record that was read can be written**, and if it is faithful its text is read as the record again, with the layout in
the texts that stand beside children. -/
theorem exists_read_print_of_read_ok {h h₁ : Heap} {input : List UInt8} {v : Value} (hok : read h input = .ok (v, h₁)) :
    ∃ root e, v = .table root ∧ (∀ e' : Element, e'.IsOf h₁ root ↔ e' = e) ∧
      (∀ options : Options, options.maxDepth = none → write h₁ options root = .ok (String.ofList (print e))) ∧
      (e.AllIn Element.IsFaithful [] → ∀ h₀, h₁.Extends h₀ → ∃ root' h₂,
        read h₀ (Utf8.encode (print e)) = .ok (.table root', h₂) ∧ h₂.tree? (.table root') = some (e.relaid 0).tree ∧
          (h₁.size < 2 ^ 63 → e.All Element.IsUnmixed → h₂.equal v (.table root') = true)) := by
  obtain ⟨n, hn, rfl, rfl⟩ := exists_node_of_read_ok hok
  have hrecord : ∀ options : Options, options.maxDepth = none → _ := fun _ hd => Element.ofRecord_of_isParsed hn h hd
  have hof := Element.isOf_of_ofRecordWithin (hrecord .default rfl)
  refine ⟨_, (Element.ofNode [] n).kept, rfl, fun e' => ⟨fun he' => he'.eq hof, by rintro rfl; exact hof⟩,
    fun options hd => by rw [write, hrecord options hd]; rfl, fun hfaithful h₀ hext => ?_⟩
  have hsettled := Element.allIn_isSettled_kept hn (List.forall_mem_nil _) hfaithful
  have htabular : (Element.ofNode [] n).kept.All Element.IsTabular :=
    ((hsettled.all fun _ _ he => he.distinct).and hof.length_lt).imp fun _ he => ⟨he.1, he.2⟩
  obtain ⟨root', h₂, hread, hext', htree⟩ := Element.exists_read_print_of_isSettled hsettled htabular h₀
  refine ⟨root', h₂, hread, htree, fun hsize hunmixed => ?_⟩
  rw [Element.size_load] at hsize
  have hplaced := Element.all_length_lt (Element.ofNode [] n) (show _ ≤ 2 ^ 63 by omega)
  have hold := Element.tree?_load hplaced (hext.trans hext')
  rw [Element.tree_relaid hunmixed] at htree
  exact Heap.equal_of_alike hold htree (Heap.alike_of_unfold hold) (Element.isNumeric_tree _)

/-- Names in a namespace, and an element in none. -/
def prefixed : String := "<p:root xmlns:p=\"urn:p\" p:lang=\"en\"><p:item p:n=\"1\">one</p:item><plain/></p:root>"

def prefixedText : String :=
  "<p:root xmlns:p=\"urn:p\" p:lang=\"en\">\n\t<p:item p:n=\"1\">one</p:item>\n\t<plain/>\n</p:root>\n"

/-- Its record comes back. -/
theorem exists_read_print_of_read_ok_prefixed : ∃ root h₁ root' h₂,
    read .empty (Utf8.encode prefixed.toList) = .ok (.table root, h₁) ∧ write h₁ .default root = .ok prefixedText ∧
      read h₁ (Utf8.encode prefixedText.toList) = .ok (.table root', h₂) ∧ h₂.equal (.table root) (.table root') = true := by
  have hdocument : (element? prefixed.toList).any (fun e => decide (e.count = 3 ∧ (e.All fun e => e.tag ≠ "") ∧
      e.kept.AllIn Element.IsFaithful [] ∧ e.kept.All Element.IsUnmixed ∧ print e.kept = prefixedText.toList)) = true := by
    decide +kernel
  obtain ⟨e, he, hfacts⟩ := (Option.any_eq_true _ _).1 hdocument
  obtain ⟨hcount, htags, hfaithful, hunmixed, hprint⟩ := of_decide_eq_true hfacts
  have hok := read_of_element? he .empty
  have hsize : (e.load .empty).2.size < 2 ^ 63 := by rw [Element.size_load, hcount]; decide
  obtain ⟨root, e', hroot, hunique, hwrite, hread⟩ := exists_read_print_of_read_ok hok
  cases hroot
  have hrecord := Element.ofRecord_load htags (.refl (e.load .empty).2) (show Options.default.maxDepth = none from rfl)
  obtain rfl := (hunique e.kept).1 (Element.isOf_of_ofRecordWithin hrecord)
  obtain ⟨root', h₂, hagain, -, hequal⟩ := hread hfaithful _ (.refl _)
  rw [hprint] at hagain hwrite
  refine ⟨_, _, root', h₂, hok, ?_, hagain, hequal hsize hunmixed⟩
  rw [hwrite .default rfl, String.ofList_toList]

/-- **Whether what is read comes back**: it can be written, and its text is read as an equal record. -/
def IsStable (input : List UInt8) : Prop := ∀ v h₁, read .empty input = .ok (v, h₁) → ∃ root text v' h₂,
  v = .table root ∧ write h₁ .default root = .ok text ∧ read h₁ (Utf8.encode text.toList) = .ok (v', h₂) ∧
    h₂.equal v v' = true

/-- Whether the text of a record that was read is no markup, or is read as a record with other data at the end of a path. -/
def changesAt (path : List Key) (cs : List Char) : Bool :=
  match element? cs with
  | none => false
  | some e =>
    match element? (print e.kept) with
    | none => true
    | some e' =>
      match (e.document.tree Value.string).at? path, (e'.document.tree Value.string).at? path with
      | some t, some t' => !t.meets t'
      | _, _ => false

theorem not_isStable_of_changesAt {path : List Key} {cs : List Char} (hcs : changesAt path cs = true) :
    ¬ IsStable (Utf8.encode cs) := by
  intro hstable
  rw [changesAt] at hcs
  split at hcs
  · cases hcs
  · rename_i e he
    obtain ⟨root, text, v', h₂, hroot, hwrite, hread, hequal⟩ := hstable _ _ (read_of_element? he .empty)
    cases hroot
    obtain ⟨n, hn, rfl⟩ := Option.map_eq_some_iff.1 he
    rw [write, Element.ofRecord_of_isParsed (Node.isParsed_of_ofMarkup? hn) .empty rfl] at hwrite
    cases hwrite
    rw [String.toList_ofList] at hread
    split at hcs
    · rename_i hnone
      rw [read_of_element?_eq_none (print_ne_nil _) hnone] at hread
      cases hread
    · rename_i e' he'
      rw [read_of_element? he'] at hread
      cases hread
      split at hcs
      · rename_i ht ht'
        have hold := Element.tree?_load_document (Element.ofNode [] n)
          (Element.extends_load e' ((Element.ofNode [] n).load .empty).2)
        have hnew := Element.tree?_load_document e' (.refl (e'.load ((Element.ofNode [] n).load .empty).2).2)
        rw [Heap.meets_of_equal hold hnew hequal ht ht'] at hcs
        cases hcs
      · cases hcs

/-- **Records that do not come back**: a text beside a child, characters that are not read as they are written, a label that
means another binding, declarations that are none again, and a name that no element may have. -/
theorem not_isStable_documents :
    ¬ IsStable (Utf8.encode "<p>hi<br/></p>".toList) ∧
    ¬ IsStable (Utf8.encode "<a>x&#13;y</a>".toList) ∧
    ¬ IsStable (Utf8.encode "<a k=\"x&#9;y\"/>".toList) ∧
    ¬ IsStable (Utf8.encode "<a k=\"x&#10;y\"/>".toList) ∧
    ¬ IsStable (Utf8.encode "<a k=\"x&#13;y\"/>".toList) ∧
    ¬ IsStable (Utf8.encode "<!DOCTYPE a [<!ENTITY e \"\x01\">]><a k=\"&e;\"/>".toList) ∧
    ¬ IsStable (Utf8.encode "<p:a xmlns:p=\"u\" xmlns:q=\"u\"><q:b xmlns:q=\"u\"/></p:a>".toList) ∧
    ¬ IsStable (Utf8.encode "<p:a xmlns:p=\"u\" xmlns:q=\"u\"><b xmlns:q=\"u\" q:k=\"\"/></p:a>".toList) ∧
    ¬ IsStable (Utf8.encode "<a xmlns=\"u\" xmlns=\"v\"><b xmlns=\"u\"><c xmlns=\"v\"/></b></a>".toList) ∧
    ¬ IsStable (Utf8.encode "<p:a xmlns:xmlns=\"u\" xmlns:p=\"u\"/>".toList) := by
  refine ⟨@not_isStable_of_changesAt [.string "text"] _ ?_, @not_isStable_of_changesAt [.string "text"] _ ?_,
    @not_isStable_of_changesAt [.string "attr", .string "k"] _ ?_, @not_isStable_of_changesAt [.string "attr", .string "k"] _ ?_,
    @not_isStable_of_changesAt [.string "attr", .string "k"] _ ?_, @not_isStable_of_changesAt [] _ ?_,
    @not_isStable_of_changesAt [.string "children", .integer 1, .string "tag"] _ ?_,
    @not_isStable_of_changesAt [.string "children", .integer 1, .string "attr"] _ ?_,
    @not_isStable_of_changesAt [.string "children", .integer 1, .string "children", .integer 1, .string "attr"] _ ?_,
    @not_isStable_of_changesAt [] _ ?_⟩
  all_goals decide +kernel

end Xml
end Interchange
