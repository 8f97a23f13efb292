import Interchange.Proofs.Xml.Nesting
import Interchange.Proofs.Xml.Stability
/-!
# Descent — elements beside their records

The record of a document holds a record for every element of it, in the same order.  A line of descent goes from an element
out to the outermost one, with the record of each beside it (`Descent`); along it every record is that of its element
inside the scope of the parent (`Descent.isRecordOf`).
-/
namespace Interchange
namespace Xml

/-- **An element and its ancestors**, innermost first, each beside its record. -/
inductive Descent (n : Node) (e : Element) : List (Node × Element) → Prop where
  | root : Descent n e [(n, e)]
  | child {p q : Node × Element} {ps : List (Node × Element)} (hline : Descent n e (q :: ps))
    (hp : p ∈ q.1.children.zip q.2.children) : Descent n e (p :: q :: ps)

/-- The scope at the innermost element of a line, as the document has it. -/
def sourceScope : List (Node × Element) → Scope
  | [] => []
  | p :: _ => p.1.scope

/-- **The scope that the records of a line build**: their declarations, laid over each other from the outermost record
inward. -/
def recordScope : List (Node × Element) → Scope
  | [] => []
  | p :: ps => p.2.scope (recordScope ps)

namespace Element

theorem ofNodes_eq (outer : Scope) (ns : List Node) : ofNodes outer ns = ns.map (ofNode outer) := by
  induction ns with
  | nil => rfl
  | cons n ns ih => rw [ofNodes, ih, List.map_cons]

theorem keptAll_eq (es : List Element) : keptAll es = es.map kept := by
  induction es with
  | nil => rfl
  | cons e es ih => rw [keptAll, ih, List.map_cons]

end Element

/-- The attributes of a node under the names that they are written with. -/
def Node.written (m : Node) : List (String × String) := m.attributes.map fun a => (m.scope.write a.1, a.2)

/-- **The record of a node inside a scope.** -/
structure IsRecordOf (outer : Scope) (m : Node) (c : Element) : Prop where
  parsed : m.IsParsed
  nested : m.IsNested outer
  eq_kept : c = (Element.ofNode outer m).kept
  placed : (Element.ofNode outer m).All fun e => e.children.length < 2 ^ 63

namespace IsRecordOf

variable {outer : Scope} {m : Node} {c : Element}

theorem tag (h : IsRecordOf outer m c) : c.tag = m.scope.write m.name := by
  rw [h.eq_kept]
  cases m
  rfl

theorem attributes (h : IsRecordOf outer m c) :
    c.attributes = Entries.ofList ((introduced outer m.scope).map Binding.attribute ++ m.written) := by
  rw [h.eq_kept]
  cases m
  rfl

theorem children (h : IsRecordOf outer m c) : c.children = m.children.map fun k => (Element.ofNode m.scope k).kept := by
  obtain ⟨-, -, rfl, hplaced⟩ := h
  obtain ⟨name, attributes, scope, text, children⟩ := m
  cases hplaced with
  | mk hlen _ =>
    have hlen : (Element.ofNodes scope children).length < 2 ^ 63 := hlen
    show Entries.sequence (Entries.ofList (Entries.numbered (Element.keptAll (Element.ofNodes scope children)))) = _
    rw [Element.sequence_keptAll hlen, Element.keptAll_eq, Element.ofNodes_eq, List.map_map]
    rfl

theorem proper (h : IsRecordOf outer m c) : ∀ b ∈ m.scope, b.IsProper := by
  cases h.parsed with
  | mk _ _ hscope _ _ => exact hscope

theorem base (h : IsRecordOf outer m c) : isNCName m.name.base = true := by
  cases h.parsed with
  | mk hname _ _ _ _ => exact hname

theorem attributeBase (h : IsRecordOf outer m c) :
    ∀ a ∈ m.attributes, isNCName a.1.base = true ∧ a.1.base ≠ "xmlns" := by
  cases h.parsed with
  | mk _ hattributes _ _ _ => exact hattributes

theorem isLabelled (h : IsRecordOf outer m c) : m.scope.IsLabelled := by
  cases h.nested with
  | mk _ hlabels _ _ _ => exact hlabels

theorem resolved (h : IsRecordOf outer m c) : ∃ q : QName, m.scope.resolve? q = some m.name := by
  cases h.nested with
  | mk _ _ hname _ _ => exact hname

theorem distinct (h : IsRecordOf outer m c) : (m.attributes.map Prod.fst).Nodup := by
  cases h.nested with
  | mk _ _ _ hattributes _ => exact hattributes

/-- **The records inside a record are those of the children.** -/
theorem child (h : IsRecordOf outer m c) {p : Node × Element} (hp : p ∈ m.children.zip c.children) :
    IsRecordOf m.scope p.1 p.2 := by
  have hzip : p ∈ m.children.map fun k => (k, (Element.ofNode m.scope k).kept) := by
    rwa [h.children, ← List.map_prod_left_eq_zip] at hp
  obtain ⟨k, hk, rfl⟩ := List.mem_map.1 hzip
  obtain ⟨hparsed, hnested, -, hplaced⟩ := h
  obtain ⟨name, attributes, scope, text, children⟩ := m
  refine ⟨?_, ?_, rfl, ?_⟩
  · cases hparsed with
    | mk _ _ _ _ hchildren => exact hchildren k hk
  · cases hnested with
    | mk _ _ _ _ hchildren => exact hchildren k hk
  · cases hplaced with
    | mk _ hchildren =>
      refine hchildren _ ?_
      show Element.ofNode scope k ∈ Element.ofNodes scope children
      rw [Element.ofNodes_eq]
      exact List.mem_map_of_mem hk

end IsRecordOf

/-- **Every record of a line is that of its element.** -/
theorem Descent.isRecordOf {n : Node} {e : Element} (he : IsRecordOf [] n e) {ps : List (Node × Element)}
    (hline : Descent n e ps) : ∀ p qs, ps = p :: qs → IsRecordOf (sourceScope qs) p.1 p.2 := by
  induction hline with
  | root => rintro p qs ⟨⟩; exact he
  | child _ hp ih => rintro p qs ⟨⟩; exact (ih _ _ rfl).child hp

/-- **What is read is the record of the document.** -/
theorem exists_isRecordOf_of_read_ok {h h₁ : Heap} {input : List UInt8} {v : Value} (hok : read h input = .ok (v, h₁))
    (hsize : h₁.size < 2 ^ 63) : ∃ n root e, Node.ofOctets? input = some n ∧ v = .table root ∧
      (∀ e' : Element, e'.IsOf h₁ root ↔ e' = e) ∧ IsRecordOf [] n e := by
  obtain ⟨n, hn, rfl, rfl⟩ := exists_ofOctets?_of_read_ok hok
  obtain ⟨cs, hcs⟩ := Node.exists_of_ofOctets? hn
  have hparsed := Node.isParsed_of_ofMarkup? hcs
  have hrecord := Element.ofRecord_of_isParsed hparsed h (show Options.default.maxDepth = none from rfl)
  have hof := Element.isOf_of_ofRecordWithin hrecord
  rw [Element.size_load] at hsize
  exact ⟨n, _, _, hn, rfl, fun e' => ⟨fun he' => he'.eq hof, by rintro rfl; exact hof⟩, hparsed,
    Node.isNested_of_ofMarkup? hcs, rfl, Element.all_length_lt _ (by omega)⟩

/-- **A document that is known as its node**, read into a heap. -/
theorem read_of_ofMarkup? {cs : List Char} {n : Node} (hn : (Markup.ofText? cs).bind Node.ofMarkup? = some n) (h : Heap) :
    Node.ofOctets? (Utf8.encode cs) = some n ∧
      read h (Utf8.encode cs) = .ok (.table ((Element.ofNode [] n).load h).1, ((Element.ofNode [] n).load h).2) ∧
      (Element.ofNode [] n).kept.IsOf ((Element.ofNode [] n).load h).2 ((Element.ofNode [] n).load h).1 := by
  have he : element? cs = some (Element.ofNode [] n) := by rw [element?, hn]; rfl
  have hparsed := Node.isParsed_of_ofMarkup? hn
  have hrecord := Element.ofRecord_of_isParsed hparsed h (show Options.default.maxDepth = none from rfl)
  refine ⟨?_, read_of_element? he h, Element.isOf_of_ofRecordWithin hrecord⟩
  rw [Node.ofOctets?, Utf8.decode_encode]
  exact hn

end Xml
end Interchange
