import Interchange.Proofs.Xml.Parsed
import Mathlib.Data.List.Nodup
/-!
# Nesting — scopes inside each other

Every element of a document that was read has its scope from the declarations of its tag and the scope of its parent, its
names are resolved in it, and no two of its attributes have one name.  A tag declares a label once, so in a scope a label
means one binding; the default may be declared twice.
-/
namespace Interchange
namespace Xml

namespace Scope

variable {scope own outer : Scope} {label : Option String} {b : Binding}

theorem of_binding?_eq_some (h : scope.binding? label = some b) : b ∈ scope ∧ b.label = label :=
  ⟨List.mem_of_find?_eq_some h, by simpa using List.find?_some h⟩

theorem binding?_eq_none_iff : scope.binding? label = none ↔ ∀ b ∈ scope, b.label ≠ label := by simp [binding?]

theorem binding?_eq_some (hb : b ∈ scope) (hunique : ∀ c ∈ scope, c.label = b.label → c = b) :
    scope.binding? b.label = some b := by
  cases hfound : scope.binding? b.label with
  | none => exact absurd rfl (binding?_eq_none_iff.1 hfound b hb)
  | some c =>
    obtain ⟨hc, hlabel⟩ := of_binding?_eq_some hfound
    rw [hunique c hc hlabel]

theorem binding?_append (own outer : Scope) (label : Option String) :
    binding? (own ++ outer) label = (own.binding? label).or (outer.binding? label) := List.find?_append

/-- What is not inherited is hidden. -/
theorem binding?_append_inherited (label : Option String) : ∀ scope outer : Scope,
    binding? (scope ++ scope.inherited outer) label = (scope.binding? label).or (outer.binding? label)
  | scope, [] => by rw [inherited, List.append_nil]; exact Option.or_none.symm
  | scope, b :: outer => by
    have hcons : binding? (b :: outer) label = (binding? [b] label).or (binding? outer label) := binding?_append [b] outer label
    rw [hcons, ← Option.or_assoc, ← binding?_append, inherited]
    split
    · rename_i hbound
      obtain ⟨c, hc, hlabel⟩ := List.any_eq_true.1 hbound
      rw [binding?_append_inherited label scope outer, binding?_append]
      cases hfound : scope.binding? label with
      | some _ => rfl
      | none =>
        -- the label that is bound already is not the one looked up
        have hb : binding? [b] label = none := binding?_eq_none_iff.2 fun d hd hsame => by
          obtain rfl := List.mem_singleton.1 hd
          exact binding?_eq_none_iff.1 hfound c hc ((beq_iff_eq.1 hlabel).trans hsame)
        rw [hb]
        rfl
    · rw [show scope ++ b :: inherited (scope ++ [b]) outer = scope ++ [b] ++ inherited (scope ++ [b]) outer by simp]
      exact binding?_append_inherited label (scope ++ [b]) outer

/-- **A declaration hides the binding outside it.** -/
theorem binding?_declare (own outer : Scope) (label : Option String) :
    (own.declare outer).binding? label = (own.binding? label).or (outer.binding? label) := by
  cases own with
  | nil => rfl
  | cons b own => exact binding?_append_inherited label _ _

/-- **A label means one binding**, the default aside. -/
def IsLabelled (scope : Scope) : Prop := ∀ b ∈ scope, ∀ c ∈ scope, b.label = c.label → b.label ≠ none → b = c

theorem isLabelled_nil : IsLabelled [] := nofun

theorem label_ne_of_mem_inherited : ∀ {scope outer : Scope}, b ∈ scope.inherited outer → ∀ c ∈ scope, c.label ≠ b.label
  | scope, d :: outer, hb, c, hc => by
    rw [inherited] at hb
    split at hb
    · exact label_ne_of_mem_inherited hb c hc
    · rename_i hfree
      rcases List.mem_cons.1 hb with rfl | hb
      · exact fun hlabel => hfree (List.any_eq_true.2 ⟨c, hc, beq_iff_eq.2 hlabel⟩)
      · exact label_ne_of_mem_inherited hb c (List.mem_append_left _ hc)

theorem IsLabelled.declare (hown : own.IsLabelled) (houter : outer.IsLabelled) : (own.declare outer).IsLabelled := by
  rw [Scope.declare]
  split
  · exact houter
  · intro b hb c hc hlabel hne
    rcases List.mem_append.1 hb with hb | hb <;> rcases List.mem_append.1 hc with hc | hc
    · exact hown b hb c hc hlabel hne
    · exact absurd hlabel (label_ne_of_mem_inherited hc b hb)
    · exact absurd hlabel.symm (label_ne_of_mem_inherited hb c hc)
    · exact houter b (mem_of_mem_inherited hb) c (mem_of_mem_inherited hc) hlabel hne

end Scope

/-! ## Tags -/

theorem TagData.isLabelled_of_add? {t t' : TagData} {name : QName} {value : String} (ht : t.own.IsLabelled)
    (h : t.add? name value = some t') : t'.own.IsLabelled := by
  have hadd : ∀ d : Binding, (∀ b ∈ t.own, b.label = d.label → d.label = none) → Scope.IsLabelled (t.own ++ [d]) := by
    intro d hd b hb c hc hlabel hne
    rw [List.mem_append, List.mem_singleton] at hb hc
    rcases hb with hb | rfl <;> rcases hc with hc | rfl
    · exact ht b hb c hc hlabel hne
    · exact absurd (hlabel.trans (hd b hb hlabel)) hne
    · exact absurd (hd c hc hlabel.symm) hne
    · rfl
  unfold TagData.add? at h
  split at h
  · split at h
    · cases h
    · split at h
      · cases h
      · rename_i hfree
        split at h
        · cases h; exact ht
        · cases h
          refine hadd _ fun b hb hlabel => absurd ?_ hfree
          exact List.any_eq_true.2 ⟨b, hb, beq_iff_eq.2 hlabel⟩
  · split at h
    · split at h
      · cases h
      · cases h
        exact hadd _ fun _ _ _ => rfl
    · cases h
      exact ht

theorem Build.isLabelled_of_tagData? {entities : List Entity} {levels : Nat} :
    ∀ {as : List (QName × List Char)} {t t' : TagData} {n n' : Nat}, t.own.IsLabelled →
      tagData? entities levels as t n = some (t', n') → t'.own.IsLabelled
  | [], _, _, _, _, ht, h => by cases h; exact ht
  | (name, raw) :: as, t, t', n, n', ht, h => by
    simp only [tagData?, Option.bind_eq_bind, Option.bind_eq_some_iff] at h
    obtain ⟨⟨value, n''⟩, -, t'', hadd, h⟩ := h
    exact isLabelled_of_tagData? (TagData.isLabelled_of_add? ht hadd) h

/-- **No two attributes have one name** once they are resolved. -/
theorem nodup_of_resolveAttributes? {scope : Scope} : ∀ {as : List (QName × String)}
    {done resolved : List (ExpandedName × String)}, (done.map Prod.fst).Nodup →
      resolveAttributes? scope done as = some resolved → (resolved.map Prod.fst).Nodup
  | [], _, _, hdone, h => by cases h; exact hdone
  | (name, value) :: as, done, resolved, hdone, h => by
    rw [resolveAttributes?] at h
    obtain ⟨e, -, h⟩ := Option.bind_eq_some_iff.1 h
    split at h
    · cases h
    · rename_i hnew
      refine nodup_of_resolveAttributes? ?_ h
      rw [List.map_append, List.map_singleton, List.nodup_append_comm, List.singleton_append, List.nodup_cons]
      refine ⟨fun hmem => hnew ?_, hdone⟩
      obtain ⟨a, ha, rfl⟩ := List.mem_map.1 hmem
      exact List.any_eq_true.2 ⟨a, ha, beq_self_eq_true _⟩

/-! ## Nodes -/

namespace Node

def name : Node → ExpandedName
  | mk name _ _ _ _ => name

def attributes : Node → List (ExpandedName × String)
  | mk _ attributes _ _ _ => attributes

def scope : Node → Scope
  | mk _ _ scope _ _ => scope

def children : Node → List Node
  | mk _ _ _ _ children => children

/-- **A node inside a scope**, and the nodes in it inside its own. -/
inductive IsNested : Scope → Node → Prop where
  | mk {outer : Scope} {n : Node} (hscope : ∃ own : Scope, n.scope = own.declare outer) (hlabels : n.scope.IsLabelled)
    (hname : ∃ q : QName, n.scope.resolve? q = some n.name) (hattributes : (n.attributes.map Prod.fst).Nodup)
    (hchildren : ∀ c ∈ n.children, IsNested n.scope c) : IsNested outer n

end Node

namespace Build

/-- The scope at the innermost of some open elements. -/
def innermost : List Frame → Scope
  | [] => []
  | f :: _ => f.scope

theorem scope_eq (b : Build) : b.scope = innermost b.frames := by
  unfold scope
  cases b.frames <;> rfl

/-- **Open elements, each inside the next.** -/
def AreNested : List Frame → Prop
  | [] => True
  | f :: fs => f.node.IsNested (innermost fs) ∧ AreNested fs

structure IsNested (b : Build) : Prop where
  frames : AreNested b.frames
  root : ∀ n ∈ b.root, n.IsNested []
  pending : b.pending.own.IsLabelled

variable {b b' : Build}

theorem IsNested.isLabelled_scope (hb : b.IsNested) : b.scope.IsLabelled := by
  have hframes := hb.frames
  rw [scope_eq]
  cases hfs : b.frames with
  | nil => exact Scope.isLabelled_nil
  | cons f fs =>
    rw [hfs] at hframes
    cases hframes.1 with
    | mk _ hlabels _ _ _ => exact hlabels

theorem IsNested.attach (hb : b.IsNested) {n : Node} (hn : n.IsNested b.scope) : (b.attach n).IsNested := by
  rw [scope_eq] at hn
  unfold Build.attach
  split
  · rename_i hfs
    rw [hfs] at hn
    refine ⟨hb.frames, fun m hm => ?_, hb.pending⟩
    cases hroot : b.root with
    | none => rw [hroot] at hm; cases hm; exact hn
    | some m' => rw [hroot] at hm; cases hm; exact hb.root _ hroot
  · rename_i f fs hfs
    rw [hfs] at hn
    have hframes := hb.frames
    rw [hfs] at hframes
    refine ⟨⟨?_, hframes.2⟩, hb.root, hb.pending⟩
    cases hframes.1 with
    | mk hscope hlabels hname hattributes hchildren =>
      refine .mk hscope hlabels hname hattributes fun m hm => ?_
      rcases List.mem_cons.1 (List.mem_reverse.1 hm) with rfl | hm
      · exact hn
      · exact hchildren m (List.mem_reverse.2 hm)

theorem IsNested.addText (hb : b.IsNested) (cs : List Char) : (b.addText cs).IsNested := by
  unfold Build.addText
  split
  · exact hb
  · rename_i f fs hfs
    have hframes := hb.frames
    rw [hfs] at hframes
    refine ⟨⟨?_, hframes.2⟩, hb.root, hb.pending⟩
    cases hframes.1 with
    | mk hscope hlabels hname hattributes hchildren => exact .mk hscope hlabels hname hattributes hchildren

theorem IsNested.frame? (hb : b.IsNested) {name : QName} {t : TagData} (ht : t.own.IsLabelled) {f : Frame}
    (h : b.frame? name t = some f) : f.node.IsNested b.scope := by
  simp only [Build.frame?, Option.bind_eq_bind, Option.bind_eq_some_iff] at h
  obtain ⟨attributes, hattributes, resolved, hresolved, h⟩ := h
  cases h
  have hnone : (([] : List (ExpandedName × String)).map Prod.fst).Nodup := List.nodup_nil
  exact .mk ⟨t.own, rfl⟩ (ht.declare hb.isLabelled_scope) ⟨name, hresolved⟩
    (nodup_of_resolveAttributes? hnone hattributes) (List.forall_mem_nil _)

theorem IsNested.open? (hb : b.IsNested) {entities : List Entity} {levels : Nat} {name : QName}
    {as : List (QName × List Char)} {ending : TagEnd} (h : b.open? entities levels name as ending = some b') :
    b'.IsNested := by
  unfold Build.open? at h
  split at h
  · cases h
  · obtain ⟨⟨t, n⟩, ht, h⟩ := Option.bind_eq_some_iff.1 h
    have ht := isLabelled_of_tagData? hb.pending ht
    cases ending with
    | missing => cases h; exact ⟨hb.frames, hb.root, ht⟩
    | empty =>
      obtain ⟨f, hf, h⟩ := Option.bind_eq_some_iff.1 h
      cases h
      have hb' : IsNested { b with pending := .empty, references := n } := ⟨hb.frames, hb.root, Scope.isLabelled_nil⟩
      exact hb'.attach (hb.frame? ht hf)
    | opening =>
      obtain ⟨f, hf, h⟩ := Option.bind_eq_some_iff.1 h
      cases h
      exact ⟨⟨scope_eq b ▸ hb.frame? ht hf, hb.frames⟩, hb.root, Scope.isLabelled_nil⟩

theorem IsNested.close? (hb : b.IsNested) {name : QName} (h : b.close? name = some b') : b'.IsNested := by
  unfold Build.close? at h
  split at h
  · cases h; exact hb
  · rename_i f fs hfs
    have hframes := hb.frames
    rw [hfs] at hframes
    split at h
    · cases h
      have hb' : IsNested { b with frames := fs } := ⟨hframes.2, hb.root, hb.pending⟩
      refine hb'.attach ?_
      rw [scope_eq]
      exact hframes.1
    · cases h

theorem isKept_isNested : IsKept IsNested where
  addText hb _ := hb.addText _
  open? hb _ _ h := hb.open? h
  close? hb h := hb.close? h
  references _ hb := ⟨hb.frames, hb.root, hb.pending⟩

end Build

/-- **The outermost element of a document is inside no scope.** -/
theorem Node.isNested_of_ofMarkup? {cs : List Char} {n : Node} (h : (Markup.ofText? cs).bind ofMarkup? = some n) :
    n.IsNested [] := by
  obtain ⟨b, hb, hroot⟩ := Build.isKept_isNested.exists_of_ofMarkup? ⟨trivial, nofun, Scope.isLabelled_nil⟩ h
  exact hb.root n hroot

end Xml
end Interchange
