import Interchange.Proofs.Xml.Building
import Interchange.Proofs.Xml.Records
/-!
# Inertness — data that cannot become markup

Escaped data holds none of the characters that markup is made of, and gives the data back once its entities are replaced.
So the markup of a written record, down to the last bracket and quote, is fixed by what is not data: two records that
differ in texts and attribute values alone have the same marks (`marks_render`).
-/
namespace Interchange
namespace Xml

/-! ## Escaped data -/

/-- The five predefined entities, as they stand in a document, with the characters they stand for. -/
def entities : List (String × Char) := [("&amp;", '&'), ("&lt;", '<'), ("&gt;", '>'), ("&quot;", '"'), ("&apos;", '\'')]

/-- **Replace the predefined entities**, from left to right: what a replacement gives is not looked at again. -/
def unescape : List Char → List Char
  | '&' :: 'a' :: 'm' :: 'p' :: ';' :: cs => '&' :: unescape cs
  | '&' :: 'l' :: 't' :: ';' :: cs => '<' :: unescape cs
  | '&' :: 'g' :: 't' :: ';' :: cs => '>' :: unescape cs
  | '&' :: 'q' :: 'u' :: 'o' :: 't' :: ';' :: cs => '"' :: unescape cs
  | '&' :: 'a' :: 'p' :: 'o' :: 's' :: ';' :: cs => '\'' :: unescape cs
  | c :: cs => c :: unescape cs
  | [] => []

theorem unescape_cons {c : Char} (hc : c ≠ '&') (cs : List Char) : unescape (c :: cs) = c :: unescape cs := by
  rw [unescape]
  all_goals exact fun _ h => absurd h hc

theorem unescape_escapeChar_append (c : Char) (cs : List Char) : unescape (escapeChar c ++ cs) = c :: unescape cs := by
  unfold escapeChar
  split
  case h_6 hamp _ _ _ _ => exact unescape_cons hamp cs
  all_goals rfl

theorem unescape_escaped (cs : List Char) : unescape (escaped cs) = cs := by
  induction cs with
  | nil => rfl
  | cons c cs ih => rw [escaped_cons, unescape_escapeChar_append, ih]

example : ∀ entity ∈ entities, unescape entity.1.toList = [entity.2] := by decide

theorem escapeChar_cases (c : Char) : (escapeChar c = [c] ∧ c ≠ '&') ∨
    ∃ word, escapeChar c = '&' :: word ∧ '&' ∉ word ∧ (String.ofList ('&' :: word), c) ∈ entities := by
  unfold escapeChar
  split
  case h_6 hamp _ _ _ _ => exact .inl ⟨rfl, hamp⟩
  all_goals exact .inr ⟨_, rfl, by decide, by decide⟩

theorem suffix_of_append_of_not_mem {c : Char} {word rest cs : List Char} (hword : c ∉ word)
    (h : c :: rest <:+ word ++ cs) : c :: rest <:+ cs := by
  induction word with
  | nil => exact h
  | cons d word ih =>
    rcases List.suffix_cons_iff.1 h with heq | hsuffix
    · exact absurd (List.cons.inj heq).1 (List.ne_of_not_mem_cons hword)
    · exact ih (List.not_mem_of_not_mem_cons hword) hsuffix

theorem exists_entity_of_suffix_escaped {cs rest : List Char} (h : '&' :: rest <:+ escaped cs) :
    ∃ entity ∈ entities, entity.1.toList <+: '&' :: rest := by
  induction cs with
  | nil => simp [escaped] at h
  | cons c cs ih =>
    rw [escaped_cons] at h
    rcases escapeChar_cases c with ⟨hc, hne⟩ | ⟨word, hc, hword, hmem⟩ <;> rw [hc] at h
    · exact ih (suffix_of_append_of_not_mem (by simpa using hne.symm) h)
    · rcases List.suffix_cons_iff.1 h with heq | hsuffix
      · exact ⟨_, hmem, by rw [heq, String.toList_ofList]; exact List.prefix_append ..⟩
      · exact ih (suffix_of_append_of_not_mem hword hsuffix)

/-! ## Markup -/

/-- The brackets and quotes of a text, in order. -/
def marks (cs : List Char) : List Char := cs.filter fun c => c = '<' ∨ c = '>' ∨ c = '"'

@[simp] theorem marks_nil : marks [] = [] := rfl

@[simp] theorem marks_append (cs ds : List Char) : marks (cs ++ ds) = marks cs ++ marks ds := List.filter_append ..

@[simp] theorem marks_cons (c : Char) (cs : List Char) :
    marks (c :: cs) = if c = '<' ∨ c = '>' ∨ c = '"' then c :: marks cs else marks cs := by simp [marks, List.filter_cons]

theorem marks_flatMap {α : Type} (f : α → List Char) (as : List α) :
    marks (as.flatMap f) = as.flatMap fun a => marks (f a) := List.filter_flatMap ..

@[simp] theorem marks_escape (s : String) : marks (escape s) = [] := by
  refine List.filter_eq_nil_iff.2 fun c hc => ?_
  have hescaped : c ∈ escaped s.toList := hc
  obtain ⟨hlt, hgt, hquote, -⟩ := of_mem_escaped hescaped
  simp [hlt, hgt, hquote]

theorem marks_attributeText (a : String × String) : marks (attributeText a) = marks a.1.toList ++ ['"', '"'] := by
  simp [attributeText]

theorem marks_attributes {as as' : List (String × String)} (h : as.map Prod.fst = as'.map Prod.fst) :
    marks (as.flatMap attributeText) = marks (as'.flatMap attributeText) := by
  have hnames : ∀ bs : List (String × String), marks (bs.flatMap attributeText) =
      (bs.map Prod.fst).flatMap fun name => marks name.toList ++ ['"', '"'] := fun bs => by
    simp only [marks_flatMap, marks_attributeText, List.flatMap_map]
  rw [hnames, hnames, h]

namespace Element

/-- **Two elements that differ in their data alone**: in the values of attributes, and in texts that are there in both. -/
inductive SameMarkup : Element → Element → Prop where
  | mk {tag text text' : String} {attributes attributes' : List (String × String)} {children children' : List Element}
    (hattributes : attributes.map Prod.fst = attributes'.map Prod.fst) (htext : text = "" ↔ text' = "")
    (hchildren : List.Forall₂ SameMarkup children children') :
    SameMarkup (.mk tag attributes text children) (.mk tag attributes' text' children')

end Element

mutual

/-- **Data leaves no mark** on what is printed. -/
theorem marks_render (level : Nat) : ∀ {e e' : Element}, e.SameMarkup e' → marks (render level e) = marks (render level e')
  | .mk tag attributes text children, .mk _ attributes' text' children', .mk hattributes htext hchildren => by
    have hempty : text.isEmpty = text'.isEmpty := by
      rw [Bool.eq_iff_iff, String.isEmpty_iff, String.isEmpty_iff, htext]
    have hleaf : children.isEmpty = children'.isEmpty := by
      cases hchildren <;> rfl
    have hstart : marks (openTag (.mk tag attributes text children)) =
        marks (openTag (.mk tag attributes' text' children')) := by
      simp [openTag, Element.tag, Element.attributes, marks_attributes hattributes]
    rw [render, render, ← hempty, ← hleaf]
    cases children.isEmpty with
    | true => cases text.isEmpty <;> simp [hstart]
    | false => simp [hstart, marks_renderAll (level + 1) hchildren]

theorem marks_renderAll (level : Nat) : ∀ {es es' : List Element}, List.Forall₂ Element.SameMarkup es es' →
    marks (renderAll level es) = marks (renderAll level es')
  | [], _, .nil => rfl
  | _ :: _, _, .cons he hes => by
    rw [renderAll, renderAll, marks_append, marks_append, marks_render level he, marks_renderAll level hes]

end

/-- **Data is inert.**  Escaped data holds no character of markup, every ampersand in it begins an entity, and it gives the
data back; and written records that differ in their data alone have the same marks. -/
theorem marks_eq_of_write_ok :
    (∀ s : String, (∀ c ∈ escape s, c ≠ '<' ∧ c ≠ '>' ∧ c ≠ '"' ∧ c ≠ '\'') ∧
      (∀ rest, '&' :: rest <:+ escape s → ∃ entity ∈ entities, entity.1.toList <+: '&' :: rest) ∧
      unescape (escape s) = s.toList) ∧
    ∀ {h h' : Heap} {options options' : Options} {root root' : TableId} {text text' : String} {e e' : Element},
      write h options root = .ok text → write h' options' root' = .ok text' → e.IsOf h root → e'.IsOf h' root' →
      e.SameMarkup e' → marks text.toList = marks text'.toList := by
  refine ⟨fun s => ⟨fun c hc => of_mem_escaped hc, fun rest h => exists_entity_of_suffix_escaped h,
    unescape_escaped _⟩, ?_⟩
  intro h h' options options' root root' text text' e e' hok hok' he he' hsame
  obtain ⟨e₁, he₁, htext⟩ := bind_eq_ok.1 hok
  obtain ⟨e₂, he₂, htext'⟩ := bind_eq_ok.1 hok'
  cases htext
  cases htext'
  obtain rfl := he.eq (Element.isOf_of_ofRecordWithin he₁)
  obtain rfl := he'.eq (Element.isOf_of_ofRecordWithin he₂)
  rw [String.toList_ofList, String.toList_ofList, print, print, marks_render 0 hsame]

/-- A record with an attribute and a text, and one record inside it. -/
def note (value text : String) : Heap :=
  ⟨#[.ofPairs [(.string "tag", .string "a"), (.string "attr", .table ⟨1⟩), (.string "text", .string text),
      (.string "children", .table ⟨2⟩)],
    .ofPairs [(.string "k", .string value)], .ofValues [.table ⟨3⟩], .ofPairs [(.string "tag", .string "b")]]⟩

def plainNote : String := "<a k=\"1\">x\n\t<b/>\n</a>\n"

/-- The value ends its attribute, the text its element, had they not been escaped. -/
def sharpNote : String := "<a k=\"&quot;/&gt;\">&lt;/a&gt;&amp;lt;\n\t<b/>\n</a>\n"

theorem marks_eq_of_write_ok_note : write (note "1" "x") .default ⟨0⟩ = .ok plainNote ∧
    write (note "\"/>" "</a>&lt;") .default ⟨0⟩ = .ok sharpNote ∧ marks plainNote.toList = marks sharpNote.toList := by
  have hok : write (note "1" "x") .default ⟨0⟩ = .ok plainNote := by decide +kernel
  have hok' : write (note "\"/>" "</a>&lt;") .default ⟨0⟩ = .ok sharpNote := by decide +kernel
  have he : Element.ofRecord (note "1" "x") .default ⟨0⟩ = .ok (.mk "a" [("k", "1")] "x" [.mk "b" [] "" []]) := rfl
  have he' : Element.ofRecord (note "\"/>" "</a>&lt;") .default ⟨0⟩ =
      .ok (.mk "a" [("k", "\"/>")] "</a>&lt;" [.mk "b" [] "" []]) := rfl
  refine ⟨hok, hok', marks_eq_of_write_ok.2 hok hok' (Element.isOf_of_ofRecordWithin he)
    (Element.isOf_of_ofRecordWithin he') (.mk rfl (by decide) (.cons (.mk rfl Iff.rfl .nil) .nil))⟩

end Xml
end Interchange
