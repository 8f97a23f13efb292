import Interchange.Proofs.Xml.Meaning
import Mathlib.Data.List.Dedup
/-!
# Attributes — what a record keeps of them

The attributes of a record are the declarations that its element introduces and the attributes of the element under written
names, the later of two with one name in the place of the earlier.  A name is written with the first label of its namespace,
and as the default binds no attribute, a namespace that has the default for its first binding leaves an attribute without a
label: it means no namespace then, and may hide another.  Of an element with clear declarations all attributes are kept
exactly when none of them is left so (`IsRecordOf.keepsAttributes_iff`).
-/
namespace Interchange
namespace Xml

/-- **An attribute is written as it is meant** exactly when there is a label for its namespace, if it has one. -/
theorem Scope.resolveAttribute?_write_iff {scope : Scope} (hscope : ∀ b ∈ scope, b.IsProper)
    (hlabels : scope.IsLabelled) {name : ExpandedName} (hname : isNCName name.base = true) :
    scope.resolveAttribute? (.ofString (scope.write name)) = some name ↔
      ∀ uri ∈ name.space, scope.labelOf? uri ≠ none := by
  obtain ⟨space, base⟩ := name
  rw [ofString_write hscope hname]
  cases space with
  | none => simp [writtenName, resolveAttribute?]
  | some uri =>
    cases hlabel : scope.labelOf? uri with
    | none => simp [writtenName, resolveAttribute?, hlabel]
    | some label =>
      have hmeant : scope.resolveAttribute? ⟨label, base⟩ = some ⟨some uri, base⟩ := by
        rcases labelOf?_eq_some hlabel with ⟨rfl, rfl⟩ | ⟨b, hb, hblabel, rfl⟩
        · rfl
        · obtain ⟨hncname, hxml⟩ := (hscope b hb).label label hblabel
          have hfound : scope.binding? (some label) = some b := by
            rw [← hblabel]
            exact binding?_eq_some hb fun c hc hsame => hlabels c hc b hb hsame (by simp [hsame, hblabel])
          simp [resolveAttribute?, resolve?, hxml, ne_empty_of_isNCName hncname, hfound]
      simp [writtenName, hlabel, hmeant]

theorem Scope.write_of_labelOf?_eq_none {scope : Scope} {uri : String} (huri : scope.labelOf? uri = none) (base : String) :
    scope.write ⟨some uri, base⟩ = scope.write ⟨none, base⟩ := by simp [write, huri]

theorem Node.keys_written (m : Node) : Entries.keys m.written = (m.attributes.map Prod.fst).map m.scope.write := by
  simp [Entries.keys, written]

/-- **A record keeps all attributes of its element**: it has one entry for each binding that the element introduces and one
for each attribute, with its value, under a name that means the name of the attribute, and no other. -/
def KeepsAttributes (outer : Scope) (m : Node) (c : Element) : Prop :=
  ∃ named : ExpandedName → String,
    c.attributes.Perm ((introduced outer m.scope).dedup.map Binding.attribute ++ m.attributes.map fun a => (named a.1, a.2)) ∧
    ∀ a ∈ m.attributes, m.scope.resolveAttribute? (.ofString (named a.1)) = some a.1

namespace IsRecordOf

variable {outer : Scope} {m : Node} {c : Element}

theorem resolves_iff (h : IsRecordOf outer m c) {a : ExpandedName × String} (ha : a ∈ m.attributes) :
    m.scope.resolveAttribute? (.ofString (m.scope.write a.1)) = some a.1 ↔
      ∀ uri ∈ a.1.space, m.scope.labelOf? uri ≠ none :=
  Scope.resolveAttribute?_write_iff h.proper h.isLabelled (h.attributeBase a ha).1

/-- **With clear declarations**, a record has each of them once, and the attributes that are not hidden. -/
theorem attributes_perm (h : IsRecordOf outer m c) (hclear : m.IsClear) : c.attributes.Perm
    ((introduced outer m.scope).dedup.map Binding.attribute ++ Entries.ofList m.written) := by
  have hsame : ∀ b ∈ introduced outer m.scope, ∀ d ∈ introduced outer m.scope, b.attribute.1 = d.attribute.1 → b = d :=
    fun b hb d hd => h.eq_of_attribute hclear (List.mem_filter.1 hb).1 (List.mem_filter.1 hd).1
  have hpairs : ∀ p ∈ (introduced outer m.scope).map Binding.attribute,
      ∀ q ∈ (introduced outer m.scope).map Binding.attribute, p.1 = q.1 → p = q := by
    intro p hp q hq hname
    obtain ⟨b, hb, rfl⟩ := List.mem_map.1 hp
    obtain ⟨d, hd, rfl⟩ := List.mem_map.1 hq
    rw [hsame b hb d hd hname]
  have hapart : ∀ k ∈ Entries.keys m.written, k ∉ Entries.keys ((introduced outer m.scope).map Binding.attribute) := by
    intro k hk hk'
    obtain ⟨_, hwritten, rfl⟩ := List.mem_map.1 hk
    obtain ⟨_, hdeclared, hname⟩ := List.mem_map.1 hk'
    obtain ⟨a, ha, rfl⟩ := List.mem_map.1 hwritten
    obtain ⟨b, hb, rfl⟩ := List.mem_map.1 hdeclared
    exact hclear.attributes a ha b (List.mem_filter.1 hb).1 hname.symm
  have hdeclared : (Entries.ofList ((introduced outer m.scope).map Binding.attribute)).Perm
      ((introduced outer m.scope).dedup.map Binding.attribute) := by
    have hnodup : ((introduced outer m.scope).dedup.map Binding.attribute).Nodup :=
      (List.nodup_dedup _).map_on fun b hb d hd heq =>
        hsame b (List.mem_dedup.1 hb) d (List.mem_dedup.1 hd) (congrArg Prod.fst heq)
    refine (List.perm_ext_iff_of_nodup (List.Nodup.of_map Prod.fst Entries.nodup_keys_ofList) hnodup).2 fun a => ?_
    rw [Entries.mem_ofList_iff hpairs]
    simp
  rw [h.attributes, Entries.ofList_append hapart]
  exact hdeclared.append_right _

theorem nodup_keys_written (h : IsRecordOf outer m c)
    (hmeant : ∀ a ∈ m.attributes, m.scope.resolveAttribute? (.ofString (m.scope.write a.1)) = some a.1) :
    (Entries.keys m.written).Nodup := by
  rw [Node.keys_written]
  refine h.distinct.map_on fun x hx y hy hname => ?_
  obtain ⟨a, ha, rfl⟩ := List.mem_map.1 hx
  obtain ⟨b, hb, rfl⟩ := List.mem_map.1 hy
  have ha := hmeant a ha
  rw [hname, hmeant b hb] at ha
  exact (Option.some.inj ha).symm

/-- **All attributes are kept exactly when each has a label for its namespace.** -/
theorem keepsAttributes_iff (h : IsRecordOf outer m c) (hclear : m.IsClear) : KeepsAttributes outer m c ↔
    ∀ a ∈ m.attributes, ∀ uri ∈ a.1.space, m.scope.labelOf? uri ≠ none := by
  constructor
  · rintro ⟨named, hperm, hmeant⟩ a ha uri huri hnone
    have hwritten : (Entries.ofList m.written).Perm (m.attributes.map fun a => (named a.1, a.2)) :=
      (List.perm_append_left_iff _).1 ((h.attributes_perm hclear).symm.trans hperm)
    -- as many are left as there are attributes, so no two are written alike
    have hnodup : (Entries.keys m.written).Nodup := by
      rw [← Entries.length_ofList_eq_iff, hwritten.length_eq, Node.written, List.length_map, List.length_map]
    rw [Entries.ofList_eq_self hnodup] at hwritten
    -- the bare name means an attribute in no namespace, which must be there as well and is written the same
    have hmem : (m.scope.write a.1, a.2) ∈ m.attributes.map fun a => (named a.1, a.2) :=
      hwritten.mem_iff.1 (List.mem_map_of_mem ha)
    obtain ⟨a', ha', heq⟩ := List.mem_map.1 hmem
    have hbase := (h.attributeBase a ha).1
    obtain ⟨⟨space, base⟩, value⟩ := a
    obtain rfl : space = some uri := huri
    have hbare : m.scope.write ⟨some uri, base⟩ = m.scope.write ⟨none, base⟩ := Scope.write_of_labelOf?_eq_none hnone base
    have hother : a'.1 = ⟨none, base⟩ := by
      have hself := (@Scope.resolveAttribute?_write_iff _ h.proper h.isLabelled ⟨none, base⟩ hbase).2 nofun
      have hmeant' := hmeant a' ha'
      rw [(Prod.mk.inj heq).1, hbare, hself] at hmeant'
      exact (Option.some.inj hmeant').symm
    rw [Node.keys_written] at hnodup
    have hsame : (⟨some uri, base⟩ : ExpandedName) = a'.1 :=
      List.inj_on_of_nodup_map hnodup (List.mem_map_of_mem ha) (List.mem_map_of_mem ha') (by rw [hother, hbare])
    rw [hother] at hsame
    cases hsame
  · intro hlabels
    have hmeant : ∀ a ∈ m.attributes, m.scope.resolveAttribute? (.ofString (m.scope.write a.1)) = some a.1 :=
      fun a ha => (h.resolves_iff ha).2 (hlabels a ha)
    refine ⟨m.scope.write, ?_, hmeant⟩
    have hperm := h.attributes_perm hclear
    rwa [Entries.ofList_eq_self (h.nodup_keys_written hmeant)] at hperm

end IsRecordOf

/-- **The attributes of what is read.**  Every record has the declarations and the attributes of its element, the later of
two with one name in the place of the earlier; a name means that of the attribute exactly when there is a label for
its namespace; and an element with clear declarations has all its attributes kept exactly when there is one for each. -/
theorem keepsAttributes_iff_of_read_ok {h h₁ : Heap} {input : List UInt8} {v : Value} (hok : read h input = .ok (v, h₁))
    (hsize : h₁.size < 2 ^ 63) : ∃ n root e, Node.ofOctets? input = some n ∧ v = .table root ∧
      (∀ e' : Element, e'.IsOf h₁ root ↔ e' = e) ∧ ∀ m c ps, Descent n e ((m, c) :: ps) →
        m.children.length = c.children.length ∧
        c.attributes = Entries.ofList ((introduced (sourceScope ps) m.scope).map Binding.attribute ++ m.written) ∧
        (∀ a ∈ m.attributes, m.scope.resolveAttribute? (.ofString (m.scope.write a.1)) = some a.1 ↔
          ∀ uri ∈ a.1.space, m.scope.labelOf? uri ≠ none) ∧
        (m.IsClear → (KeepsAttributes (sourceScope ps) m c ↔
          ∀ a ∈ m.attributes, ∀ uri ∈ a.1.space, m.scope.labelOf? uri ≠ none)) := by
  obtain ⟨n, root, e, hn, hroot, hunique, he⟩ := exists_isRecordOf_of_read_ok hok hsize
  refine ⟨n, root, e, hn, hroot, hunique, fun m c ps hline => ?_⟩
  have hrecord : IsRecordOf (sourceScope ps) m c := hline.isRecordOf he _ _ rfl
  exact ⟨by rw [hrecord.children, List.length_map], hrecord.attributes, fun a ha => hrecord.resolves_iff ha,
    hrecord.keepsAttributes_iff⟩

/-- An attribute in a namespace, and one with the same base in none. -/
def labelled : String := "<a xmlns:p=\"u\" p:k=\"1\" k=\"2\"/>"

theorem keepsAttributes_iff_of_read_ok_labelled : ∃ h₁ root n e,
    read .empty (Utf8.encode labelled.toList) = .ok (.table root, h₁) ∧ e.IsOf h₁ root ∧
      n.attributes = [(⟨some "u", "k"⟩, "1"), (⟨none, "k"⟩, "2")] ∧
      e.attributes = [("xmlns:p", "u"), ("p:k", "1"), ("k", "2")] ∧ KeepsAttributes [] n e := by
  have hdocument : ((Markup.ofText? labelled.toList).bind Node.ofMarkup?).any (fun n =>
      decide (n.IsClear ∧ (Element.ofNode [] n).count = 1 ∧ n.attributes = [(⟨some "u", "k"⟩, "1"), (⟨none, "k"⟩, "2")] ∧
        (Element.ofNode [] n).kept.attributes = [("xmlns:p", "u"), ("p:k", "1"), ("k", "2")] ∧
        ∀ a ∈ n.attributes, ∀ uri ∈ a.1.space, n.scope.labelOf? uri ≠ none)) = true := by
    decide +kernel
  obtain ⟨n, hn, hfacts⟩ := (Option.any_eq_true _ _).1 hdocument
  obtain ⟨hclear, hcount, hattributes, hkept, hlabels⟩ := of_decide_eq_true hfacts
  obtain ⟨hoctets, hok, hof⟩ := read_of_ofMarkup? hn .empty
  have hsize : ((Element.ofNode [] n).load .empty).2.size < 2 ^ 63 := by rw [Element.size_load, hcount]; decide
  obtain ⟨n', root', e', hn', hroot, hunique, hline⟩ := keepsAttributes_iff_of_read_ok hok hsize
  cases hroot
  obtain rfl := Option.some.inj (hoctets.symm.trans hn')
  obtain rfl := (hunique _).1 hof
  exact ⟨_, _, _, _, hok, hof, hattributes, hkept, ((hline _ _ _ .root).2.2.2 hclear).2 hlabels⟩

/-- **Whether records keep all attributes of a document**, in all its elements. -/
def KeepsAllAttributes (input : List UInt8) : Prop := ∀ h₁ root n e, read .empty input = .ok (.table root, h₁) →
  Node.ofOctets? input = some n → e.IsOf h₁ root → ∀ m c ps, Descent n e ((m, c) :: ps) →
    KeepsAttributes (sourceScope ps) m c

/-- **An attribute that is lost**: its namespace is the default as well, so it is written as the one behind it. -/
theorem not_keepsAllAttributes_document :
    ¬ KeepsAllAttributes (Utf8.encode "<a xmlns=\"u\" xmlns:p=\"u\" p:k=\"1\" k=\"2\"/>".toList) := by
  have hdocument : ((Markup.ofText? "<a xmlns=\"u\" xmlns:p=\"u\" p:k=\"1\" k=\"2\"/>".toList).bind
      Node.ofMarkup?).any (fun n => decide (n.attributes = [(⟨some "u", "k"⟩, "1"), (⟨none, "k"⟩, "2")] ∧
        introduced [] n.scope = n.scope ∧ n.scope = [⟨none, "u"⟩, ⟨some "p", "u"⟩] ∧
        (Element.ofNode [] n).kept.attributes = [("xmlns", "u"), ("xmlns:p", "u"), ("k", "2")])) = true := by
    decide +kernel
  obtain ⟨n, hn, hfacts⟩ := (Option.any_eq_true _ _).1 hdocument
  obtain ⟨hattributes, hintroduced, hscope, hkept⟩ := of_decide_eq_true hfacts
  obtain ⟨hoctets, hok, hof⟩ := read_of_ofMarkup? hn .empty
  intro hkeeps
  obtain ⟨named, hperm, -⟩ := hkeeps _ _ _ _ hok hoctets hof _ _ _ .root
  -- two bindings and two attributes, but three entries
  have hlength := hperm.length_eq
  rw [hkept, sourceScope, hintroduced, hscope, hattributes, List.length_append, List.length_map, List.length_map] at hlength
  exact absurd hlength (by decide)

end Xml
end Interchange
