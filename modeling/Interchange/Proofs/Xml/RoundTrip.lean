import Interchange.Proofs.Xml.Resolving
/-!
# Round trip — records without namespaces

A record whose names have no colon, and whose data is read as it is written, comes back from its text with its attributes
and its children as they were.  Its text comes back too, with the line ends and the indentation that stand around the
children; where all of that is white space, there is no text (`read_eq_relaid_of_write_ok`).
-/
namespace Interchange
namespace Xml

theorem QName.ofString_of_isNCName {s : String} (hs : isNCName s = true) : QName.ofString s = ⟨"", s⟩ :=
  ofString_written (q := ⟨"", s⟩) ⟨hs, .inl rfl⟩

theorem isQName_of_isNCName {s : String} (hs : isNCName s = true) : isQName s = true :=
  isQName_written (q := ⟨"", s⟩) ⟨hs, .inl rfl⟩

namespace Element

/-- **An element without namespaces**: its names have no colon, no attribute declares the default namespace or has the name
of another, and its data is read as it is written. -/
structure IsPlain (e : Element) : Prop where
  tag : isNCName e.tag = true
  names : ∀ a ∈ e.attributes, isNCName a.1 = true ∧ a.1 ≠ "xmlns"
  distinct : (Entries.keys e.attributes).Nodup
  values : ∀ a ∈ e.attributes, isPlainValue a.2 = true
  text : isPlainText e.text = true

instance (e : Element) : Decidable e.IsPlain :=
  decidable_of_iff (isNCName e.tag = true ∧ (∀ a ∈ e.attributes, isNCName a.1 = true ∧ a.1 ≠ "xmlns") ∧
      (Entries.keys e.attributes).Nodup ∧ (∀ a ∈ e.attributes, isPlainValue a.2 = true) ∧ isPlainText e.text = true)
    ⟨fun h => ⟨h.1, h.2.1, h.2.2.1, h.2.2.2.1, h.2.2.2.2⟩, fun h => ⟨h.tag, h.names, h.distinct, h.values, h.text⟩⟩

variable {e : Element}

theorem IsPlain.ofAttribute?_eq_none (he : e.IsPlain) : ∀ a ∈ e.attributes, Binding.ofAttribute? a = none := fun a ha => by
  obtain ⟨hname, hne⟩ := he.names a ha
  rw [Binding.ofAttribute?, QName.ofString_of_isNCName hname]
  dsimp only
  rw [if_neg (by decide), if_neg hne]

theorem IsPlain.declarations_eq (he : e.IsPlain) : e.declarations = [] :=
  List.filterMap_eq_nil_iff.2 he.ofAttribute?_eq_none

theorem IsPlain.scope_eq (he : e.IsPlain) : e.scope [] = [] := by rw [scope, he.declarations_eq]; rfl

theorem IsPlain.others_eq (he : e.IsPlain) : e.others = e.attributes :=
  List.filter_eq_self.2 fun a ha => by rw [he.ofAttribute?_eq_none a ha]; rfl

/-- **Without namespaces every name comes back.** -/
theorem IsPlain.isSettled (he : e.IsPlain) : e.IsSettled [] where
  tag := by rw [he.scope_eq, QName.ofString_of_isNCName he.tag]; rfl
  others a ha := by
    rw [he.scope_eq, QName.ofString_of_isNCName (he.names a (he.others_eq ▸ ha)).1]
    rfl
  declarations := by rw [he.declarations_eq]; exact nofun
  values := he.values
  text := (isPlainText_iff.1 he.text).2
  tagNamed := isQName_of_isNCName he.tag
  tagLabel := by
    rw [QName.ofString_of_isNCName he.tag]
    show ("" : String) ≠ "xmlns"
    decide
  named a ha := isQName_of_isNCName (he.names a (he.others_eq ▸ ha)).1
  proper := by rw [he.declarations_eq]; exact nofun
  attributes := by rw [he.declarations_eq, he.others_eq]; rfl
  distinct := he.distinct
  legal := (isPlainText_iff.1 he.text).1

theorem IsPlain.allIn (he : e.All IsPlain) : e.AllIn IsSettled [] := by
  induction he with
  | mk he _ ih => exact .mk he.isSettled fun c hc => by rw [he.scope_eq]; exact ih c hc

end Element

/-- **A written record without namespaces comes back from its text**, with the layout of the text in its texts. -/
theorem read_eq_relaid_of_write_ok {h : Heap} {options : Options} {root : TableId} {text : String}
    (hok : write h options root = .ok text) : ∃ e : Element, (∀ e' : Element, e'.IsOf h root ↔ e' = e) ∧
      (e.All Element.IsPlain → ∀ h₀, ∃ id h', read h₀ (Utf8.encode text.toList) = .ok (.table id, h') ∧
        h'.tree? (.table id) = some (e.relaid 0).tree) := by
  obtain ⟨e, he, htext⟩ := bind_eq_ok.1 hok
  cases htext
  have hof : e.IsOf h root := Element.isOf_of_ofRecordWithin he
  refine ⟨e, fun e' => ⟨fun he' => he'.eq hof, by rintro rfl; exact hof⟩, fun hplain h₀ => ?_⟩
  have htabular : e.All Element.IsTabular :=
    (hplain.and hof.length_lt).imp fun _ he => ⟨he.1.distinct, he.2⟩
  obtain ⟨id, h', hread, -, htree⟩ := Element.exists_read_print_of_isSettled (Element.IsPlain.allIn hplain) htabular h₀
  exact ⟨id, h', by rwa [String.toList_ofList], htree⟩

/-- A number for an attribute, a blank text, and records inside records. -/
def pamphlet : Heap :=
  ⟨#[.ofPairs [(.string "tag", .string "a"), (.string "attr", .table ⟨1⟩), (.string "text", .string "x & y"),
      (.string "children", .table ⟨2⟩)],
    .ofPairs [(.string "k", .integer 1)], .ofValues [.table ⟨3⟩, .table ⟨4⟩],
    .ofPairs [(.string "tag", .string "b"), (.string "text", .string " ")],
    .ofPairs [(.string "tag", .string "c"), (.string "children", .table ⟨5⟩)], .ofValues [.table ⟨6⟩],
    .ofPairs [(.string "tag", .string "d")]]⟩

def pamphletText : String := "<a k=\"1\">x &amp; y\n\t<b> </b>\n\t<c>\n\t\t<d/>\n\t</c>\n</a>\n"

/-- The tree of a record without attributes and text. -/
def bare (tag : String) (children : List Tree) : Tree :=
  .table [(.string "tag", .string tag), (.string "attr", .table []), (.string "children", .table (Entries.numbered children))]

/-- The line ends stand behind the first text; the other texts are white space. -/
theorem read_eq_relaid_of_write_ok_pamphlet : write pamphlet .default ⟨0⟩ = .ok pamphletText ∧
    ∀ h₀, ∃ id h', read h₀ (Utf8.encode pamphletText.toList) = .ok (.table id, h') ∧
      h'.tree? (.table id) = some (.table [(.string "tag", .string "a"), (.string "attr", .table [(.string "k", .string "1")]),
        (.string "text", .string "x & y\n\t\n\t\n"),
        (.string "children", .table [(.integer 1, bare "b" []), (.integer 2, bare "c" [bare "d" []])])]) := by
  have hok : write pamphlet .default ⟨0⟩ = .ok pamphletText := by decide +kernel
  have he : Element.ofRecord pamphlet .default ⟨0⟩ =
      .ok (.mk "a" [("k", "1")] "x & y" [.mk "b" [] " " [], .mk "c" [] "" [.mk "d" [] "" []]]) := rfl
  obtain ⟨e, hunique, hread⟩ := read_eq_relaid_of_write_ok hok
  obtain rfl := (hunique _).1 (Element.isOf_of_ofRecordWithin he)
  exact ⟨hok, hread (by decide +kernel)⟩

end Xml
end Interchange
