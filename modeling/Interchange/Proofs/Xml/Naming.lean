import Interchange.Proofs.Xml.Building
import Interchange.Proofs.Xml.Parsed
import Interchange.Proofs.Xml.Records
/-!
# Naming — names written and read

A name that was written of a label and a base is read as just these (`QName.ofString_written`).  In proper bindings every
name of a node is written as such a name (`Scope.exists_write_eq`), so no element of a node that was read is without a tag.
-/
namespace Interchange
namespace Xml

/-! ## Names -/

/-- The text of a name, its label in front of a colon. -/
def QName.written (q : QName) : String := if q.label.isEmpty then q.base else q.label ++ ":" ++ q.base

theorem of_isNCName {s : String} (hs : isNCName s = true) :
    s.toList.head?.any isNameStart = true ∧ ∀ c ∈ s.toList, isNameChar c = true ∧ c ≠ ':' := by
  obtain ⟨hhead, hall⟩ := Bool.and_eq_true_iff.1 hs
  refine ⟨hhead, fun c hc => ?_⟩
  have hc := List.all_eq_true.1 hall c hc
  simpa using hc

theorem qname?_base {base : String} (hbase : isNCName base = true) : Scan.qname? base.toList = some (⟨"", base⟩, []) := by
  obtain ⟨hhead, hchars⟩ := of_isNCName hbase
  have hcolon : base.toList.contains ':' = false := by
    rw [← Bool.not_eq_true, List.contains_iff_mem]
    exact fun hm => (hchars _ hm).2 rfl
  have hspan := span_append (fun c hc => (hchars c hc).1) [] rfl
  have hsplit := span_append (p := (· != ':')) (fun c hc => by simpa using (hchars c hc).2) [] rfl
  rw [List.append_nil] at hspan hsplit
  rw [Scan.qname?, hspan]
  dsimp only
  rw [hsplit]
  dsimp only
  rw [hcolon, hhead, String.ofList_toList]
  rfl

theorem qname?_labelled {label base : String} (hlabel : isNCName label = true) (hbase : isNCName base = true) :
    Scan.qname? (label.toList ++ ':' :: base.toList) = some (⟨label, base⟩, []) := by
  obtain ⟨hhead, hchars⟩ := of_isNCName hbase
  obtain ⟨hlabelHead, hlabelChars⟩ := of_isNCName hlabel
  have hcolon : base.toList.contains ':' = false := by
    rw [← Bool.not_eq_true, List.contains_iff_mem]
    exact fun hm => (hchars _ hm).2 rfl
  have hall : ∀ c ∈ label.toList ++ ':' :: base.toList, isNameChar c = true := by
    refine List.forall_mem_append.2 ⟨fun c hc => (hlabelChars c hc).1, List.forall_mem_cons.2 ⟨?_, fun c hc => (hchars c hc).1⟩⟩
    decide
  have hlabelStart : label.toList.head?.all isNameStart = true := by
    obtain ⟨c, hc, hstart⟩ := (Option.any_eq_true _ _).1 hlabelHead
    rw [hc]
    exact hstart
  have hspan := span_append hall [] rfl
  have hsplit := span_append (p := (· != ':')) (fun c hc => by simpa using (hlabelChars c hc).2) (':' :: base.toList) rfl
  rw [List.append_nil] at hspan
  rw [Scan.qname?, hspan]
  dsimp only
  rw [hsplit]
  dsimp only
  rw [hcolon, hhead, hlabelStart, String.ofList_toList, String.ofList_toList]
  rfl

/-- **A name is read as its label and its base.** -/
theorem qname?_written {q : QName} (hq : q.IsProper) : Scan.qname? q.written.toList = some (q, []) := by
  obtain ⟨label, base⟩ := q
  obtain ⟨hbase, rfl | hlabel⟩ := hq
  · exact qname?_base hbase
  · have hne : label.isEmpty = false := by
      rw [Bool.eq_false_iff, ne_eq, String.isEmpty_iff]
      exact ne_empty_of_isNCName hlabel
    have hwritten : (QName.mk label base).written.toList = label.toList ++ ':' :: base.toList := by
      rw [QName.written, hne]
      simp
    rw [hwritten, qname?_labelled hlabel hbase]

theorem QName.ofString_written {q : QName} (hq : q.IsProper) : QName.ofString q.written = q := by
  rw [QName.ofString, qname?_written hq]
  rfl

theorem isQName_written {q : QName} (hq : q.IsProper) : isQName q.written = true := by
  rw [isQName, qname?_written hq]
  rfl

namespace Scope

variable {scope : Scope} {name : ExpandedName}

/-- The name that an expanded one is written as: with a label for its namespace, or without. -/
def writtenName (scope : Scope) (name : ExpandedName) : QName := ⟨(name.space.bind scope.labelOf?).getD "", name.base⟩

theorem write_eq_written (scope : Scope) (name : ExpandedName) : scope.write name = (scope.writtenName name).written := by
  unfold write writtenName
  cases name.space.bind scope.labelOf? <;> rfl

theorem labelOf?_eq_some {uri label : String} (h : scope.labelOf? uri = some label) :
    (uri = xmlUri ∧ label = "xml") ∨ ∃ b ∈ scope, b.label = some label ∧ b.uri = uri := by
  unfold labelOf? at h
  split at h
  · rename_i huri
    cases h
    exact .inl ⟨huri, rfl⟩
  · obtain ⟨b, hb, hlabel⟩ := Option.bind_eq_some_iff.1 h
    exact .inr ⟨b, List.mem_of_find?_eq_some hb, hlabel, by simpa using List.find?_some hb⟩

theorem label_writtenName (scope : Scope) (name : ExpandedName) : (scope.writtenName name).label = "" ∨
    (scope.writtenName name).label = "xml" ∨ ∃ b ∈ scope, b.label = some (scope.writtenName name).label := by
  unfold writtenName
  cases hlabel : name.space.bind scope.labelOf? with
  | none => exact .inl rfl
  | some label =>
    obtain ⟨uri, -, hlabel⟩ := Option.bind_eq_some_iff.1 hlabel
    rcases labelOf?_eq_some hlabel with ⟨-, rfl⟩ | ⟨b, hb, hlabel, -⟩
    · exact .inr (.inl rfl)
    · exact .inr (.inr ⟨b, hb, hlabel⟩)

theorem isProper_writtenName (hscope : ∀ b ∈ scope, b.IsProper) (hname : isNCName name.base = true) :
    (scope.writtenName name).IsProper := by
  refine ⟨hname, ?_⟩
  rcases scope.label_writtenName name with hlabel | hlabel | ⟨b, hb, hlabel⟩
  · exact .inl hlabel
  · exact .inr (hlabel ▸ by decide)
  · exact .inr ((hscope b hb).label _ hlabel).1

/-- **A name that was written is read as it was meant.** -/
theorem ofString_write (hscope : ∀ b ∈ scope, b.IsProper) (hname : isNCName name.base = true) :
    QName.ofString (scope.write name) = scope.writtenName name := by
  rw [write_eq_written, QName.ofString_written (isProper_writtenName hscope hname)]

/-- **What is written of a name in a proper scope is a name again.** -/
theorem exists_write_eq (hscope : ∀ b ∈ scope, b.IsProper) (hname : isNCName name.base = true) :
    ∃ q : QName, q.IsProper ∧ scope.write name = q.written ∧ q.base = name.base ∧
      (q.label = "" ∨ q.label = "xml" ∨ ∃ b ∈ scope, b.label = some q.label) :=
  ⟨scope.writtenName name, isProper_writtenName hscope hname, write_eq_written scope name, rfl, label_writtenName scope name⟩

end Scope

theorem QName.written_ne_empty {q : QName} (hq : q.IsProper) : q.written ≠ "" := by
  intro h
  have hname := isQName_written hq
  rw [h] at hname
  cases hname

namespace Element

variable {P : Element → Prop}

mutual

theorem all_ofNode (hP : ∀ outer n, n.IsParsed → P (ofNode outer n)) : ∀ (n : Node) (outer : Scope), n.IsParsed →
    (ofNode outer n).All P
  | .mk name attributes scope text children, outer, hn => by
    refine .mk (hP outer _ hn) ?_
    cases hn with
    | mk _ _ _ _ hchildren => exact all_ofNodes hP children scope hchildren

theorem all_ofNodes (hP : ∀ outer n, n.IsParsed → P (ofNode outer n)) : ∀ (ns : List Node) (outer : Scope),
    (∀ n ∈ ns, n.IsParsed) → ∀ c ∈ ofNodes outer ns, c.All P
  | [], _, _, _, hc => nomatch hc
  | n :: ns, outer, hns, c, hc => by
    rw [List.forall_mem_cons] at hns
    rcases List.mem_cons.1 hc with rfl | hc
    · exact all_ofNode hP n outer hns.1
    · exact all_ofNodes hP ns outer hns.2 c hc

end

theorem tag_ofNode_ne_empty (outer : Scope) (n : Node) (hn : n.IsParsed) : (ofNode outer n).tag ≠ "" := by
  cases hn with
  | mk hname _ hscope _ _ =>
    obtain ⟨q, hq, htag, -⟩ := Scope.exists_write_eq hscope hname
    rw [ofNode, tag, htag]
    exact QName.written_ne_empty hq

end Element

/-- The outermost element of a document. -/
def Node.ofOctets? (input : List UInt8) : Option Node :=
  match Utf8.decode input with
  | .error _ => none
  | .ok cs => (Markup.ofText? cs).bind ofMarkup?

/-- **What is read as XML is the element of the document**, loaded. -/
theorem exists_ofOctets?_of_read_ok {h h' : Heap} {v : Value} {input : List UInt8} (hok : read h input = .ok (v, h')) :
    ∃ n, Node.ofOctets? input = some n ∧ v = .table ((Element.ofNode [] n).load h).1 ∧
      h' = ((Element.ofNode [] n).load h).2 := by
  rw [read] at hok
  split at hok
  · cases hok
  · split at hok
    · cases hok
    · rename_i hcs
      split at hok
      · rename_i n hn
        cases hok
        exact ⟨n, by rw [Node.ofOctets?, hcs]; exact hn, rfl, rfl⟩
      · cases hok

theorem Node.exists_of_ofOctets? {input : List UInt8} {n : Node} (h : ofOctets? input = some n) :
    ∃ cs, (Markup.ofText? cs).bind ofMarkup? = some n := by
  unfold ofOctets? at h
  split at h
  · cases h
  · exact ⟨_, h⟩

/-- **What is read as XML is the element of a node that was read**, loaded. -/
theorem exists_node_of_read_ok {h h' : Heap} {v : Value} {input : List UInt8} (hok : read h input = .ok (v, h')) :
    ∃ n : Node, n.IsParsed ∧ v = .table ((Element.ofNode [] n).load h).1 ∧ h' = ((Element.ofNode [] n).load h).2 := by
  obtain ⟨n, hn, hv, hh⟩ := exists_ofOctets?_of_read_ok hok
  obtain ⟨cs, hcs⟩ := Node.exists_of_ofOctets? hn
  exact ⟨n, Node.isParsed_of_ofMarkup? hcs, hv, hh⟩

end Xml
end Interchange
