import Interchange.Proofs.Encoding
import Interchange.Proofs.Growth
import Interchange.Xml.Codec
/-!
# Records — elements in a heap

The element of a record says what its fields hold (`Element.IsOf`), and a record that was loaded is a document like any
other (`Element.load_document`).  What is read from it again is the element that was loaded, less what a record does not
keep: the earlier values of a repeated attribute, and a text of white space (`Element.ofRecordWithin_load`).  The tree of
the record is the tree of what it keeps (`Element.tree?_load`).
-/
namespace Interchange
namespace Xml

instance : HasNil Element := ⟨fun _ => false⟩

namespace Element

/-- **Every element inside an element is such**, itself among them. -/
inductive All (P : Element → Prop) : Element → Prop where
  | mk {e : Element} (h : P e) (hchildren : ∀ c ∈ e.children, All P c) : All P e

theorem All.and {P Q : Element → Prop} {e : Element} (hp : e.All P) (hq : e.All Q) : e.All fun e => P e ∧ Q e := by
  induction hp with
  | mk h _ ih => cases hq with | mk h' hchildren => exact .mk ⟨h, h'⟩ fun c hc => ih c hc (hchildren c hc)

theorem All.imp {P Q : Element → Prop} (hPQ : ∀ e, P e → Q e) {e : Element} (he : e.All P) : e.All Q := by
  induction he with
  | mk h _ ih => exact .mk (hPQ _ h) ih

mutual

def decAll (P : Element → Prop) [DecidablePred P] : (e : Element) → Decidable (e.All P)
  | .mk tag attributes text children =>
    @decidable_of_iff _ (P (.mk tag attributes text children) ∧ ∀ c ∈ children, c.All P)
      ⟨fun h => .mk h.1 h.2, fun | .mk h hchildren => ⟨h, hchildren⟩⟩
      (@instDecidableAnd _ _ _ (decAlls P children))

def decAlls (P : Element → Prop) [DecidablePred P] : (es : List Element) → Decidable (∀ e ∈ es, e.All P)
  | [] => isTrue (List.forall_mem_nil _)
  | e :: es =>
    @decidable_of_iff _ (e.All P ∧ ∀ e ∈ es, e.All P) List.forall_mem_cons.symm
      (@instDecidableAnd _ _ (decAll P e) (decAlls P es))

end

instance (P : Element → Prop) [DecidablePred P] (e : Element) : Decidable (e.All P) := decAll P e

/-! ## From records -/

/-- **An element says what a record holds**: its tag, its attributes in order, its text or none, and the records of its
children up to the first gap. -/
inductive IsOf (h : Heap) : TableId → Element → Prop where
  | mk {id : TableId} {tag text : String} {attributes : List (String × String)} {children : List Element}
    {entries : List (Key × Value)} {ids : List TableId}
    (htag : (field (h.get id) "tag").coerceString? = some tag) (hne : tag ≠ "")
    (hattr : field (h.get id) "attr" = .nil ∧ entries = [] ∨
      ∃ attr, field (h.get id) "attr" = .table attr ∧ entries = (h.get attr).entries)
    (hattributes : List.Forall₂ (fun e a => e.1.name? = some a.1 ∧ e.2.coerceString? = some a.2) entries attributes)
    (htext : field (h.get id) "text" = .nil ∧ text = "" ∨ (field (h.get id) "text").coerceString? = some text)
    (hids : field (h.get id) "children" = .nil ∧ ids = [] ∨
      ∃ list, field (h.get id) "children" = .table list ∧ (h.get list).sequence = ids.map .table)
    (hchildren : List.Forall₂ (IsOf h) ids children) : IsOf h id (.mk tag attributes text children)

theorem eq_of_field {α : Type} {v : Value} {absent x y : α} {of : TableId → α}
    (hx : v = .nil ∧ x = absent ∨ ∃ id, v = .table id ∧ x = of id)
    (hy : v = .nil ∧ y = absent ∨ ∃ id, v = .table id ∧ y = of id) : x = y := by
  rcases hx with ⟨rfl, rfl⟩ | ⟨id, rfl, rfl⟩
  · rcases hy with ⟨-, rfl⟩ | ⟨id, hid, -⟩
    · rfl
    · cases hid
  · rcases hy with ⟨hid, -⟩ | ⟨id', hid, rfl⟩
    · cases hid
    · cases hid; rfl

mutual

/-- **A record holds one element.** -/
theorem IsOf.eq {h : Heap} : ∀ {e e' : Element} {id : TableId}, e.IsOf h id → e'.IsOf h id → e = e'
  | .mk tag attributes text children, _, id, .mk htag _ hattr hattributes htext hids hchildren,
      .mk htag' _ hattr' hattributes' htext' hids' hchildren' => by
    have hunique : Relator.RightUnique fun (e : Key × Value) (a : String × String) =>
        e.1.name? = some a.1 ∧ e.2.coerceString? = some a.2 := fun e a b ha hb =>
      Prod.ext (Option.some.inj (ha.1.symm.trans hb.1)) (Option.some.inj (ha.2.symm.trans hb.2))
    obtain rfl := Option.some.inj (htag.symm.trans htag')
    obtain rfl := eq_of_field hattr hattr'
    obtain rfl := hunique.forall₂ hattributes hattributes'
    have hlists := eq_of_field
      (hids.imp (fun h => ⟨h.1, congrArg (List.map Value.table) h.2⟩) fun ⟨list, hlist, h⟩ => ⟨list, hlist, h.symm⟩)
      (hids'.imp (fun h => ⟨h.1, congrArg (List.map Value.table) h.2⟩) fun ⟨list, hlist, h⟩ => ⟨list, hlist, h.symm⟩)
    obtain rfl := List.map_injective_iff.2 (fun _ _ h => Value.table.inj h) hlists
    obtain rfl := IsOf.all_eq hchildren hchildren'
    rcases htext with ⟨hnil, rfl⟩ | htext
    · rcases htext' with ⟨-, rfl⟩ | htext'
      · rfl
      · rw [hnil] at htext'; cases htext'
    · rcases htext' with ⟨hnil, -⟩ | htext'
      · rw [hnil] at htext; cases htext
      · rw [Option.some.inj (htext.symm.trans htext')]

theorem IsOf.all_eq {h : Heap} : ∀ {es es' : List Element} {ids : List TableId}, List.Forall₂ (IsOf h) ids es →
    List.Forall₂ (IsOf h) ids es' → es = es'
  | [], _, _, .nil, .nil => rfl
  | _ :: _, _, _, .cons he hes, .cons he' hes' => congrArg₂ List.cons (IsOf.eq he he') (IsOf.all_eq hes hes')

end

mutual

/-- **There is a place for every child** of an element that a record holds. -/
theorem IsOf.length_lt {h : Heap} : ∀ {e : Element} {id : TableId}, e.IsOf h id → e.All fun e => e.children.length < 2 ^ 63
  | .mk tag attributes text children, id, .mk _ _ _ _ _ hids hchildren => by
    refine .mk ?_ (IsOf.all_length_lt hchildren)
    show children.length < 2 ^ 63
    rw [← hchildren.length_eq]
    rcases hids with ⟨-, rfl⟩ | ⟨list, -, hids⟩
    · decide
    · have hlen := @Entries.length_sequence _ _ (h.get list).entries
      rw [show Entries.sequence (h.get list).entries = _ from hids, List.length_map] at hlen
      omega

theorem IsOf.all_length_lt {h : Heap} : ∀ {es : List Element} {ids : List TableId}, List.Forall₂ (IsOf h) ids es →
    ∀ c ∈ es, c.All fun e => e.children.length < 2 ^ 63
  | [], _, .nil => List.forall_mem_nil _
  | _ :: _, _, .cons he hes => List.forall_mem_cons.2 ⟨IsOf.length_lt he, IsOf.all_length_lt hes⟩

end

theorem attributesOf_eq_ok : ∀ {es : List (Key × Value)} {as : List (String × String)}, attributesOf es = .ok as →
    List.Forall₂ (fun e a => e.1.name? = some a.1 ∧ e.2.coerceString? = some a.2) es as
  | [], _, h => by cases h; exact .nil
  | (k, v) :: es, as, h => by
    rw [attributesOf] at h
    split at h
    · cases h
    · rename_i name hname
      split at h
      · cases h
      · rename_i value hvalue
        obtain ⟨rest, hrest, h⟩ := bind_eq_ok.1 h
        cases h
        exact .cons ⟨hname, hvalue⟩ (attributesOf_eq_ok hrest)

theorem childrenOf_eq_ok {record : TableId → Except Error Element} {P : TableId → Element → Prop}
    (hrecord : ∀ id e, record id = .ok e → P id e) : ∀ {vs : List Value} {es : List Element},
      childrenOf record vs = .ok es → ∃ ids, vs = ids.map .table ∧ List.Forall₂ P ids es
  | [], _, h => by cases h; exact ⟨[], rfl, .nil⟩
  | v :: vs, es, h => by
    cases v with
    | table id =>
      rw [childrenOf] at h
      obtain ⟨child, hchild, h⟩ := bind_eq_ok.1 h
      obtain ⟨rest, hrest, h⟩ := bind_eq_ok.1 h
      cases h
      obtain ⟨ids, rfl, hids⟩ := childrenOf_eq_ok hrecord hrest
      exact ⟨id :: ids, rfl, .cons (hrecord id child hchild) hids⟩
    | _ => cases h

theorem tagOf_eq_ok {record : Table} {tag : String} (h : tagOf record = .ok tag) :
    (field record "tag").coerceString? = some tag ∧ tag ≠ "" := by
  rw [tagOf] at h
  split at h
  · rename_i t ht
    split at h
    · cases h
    · rename_i hne
      cases h
      exact ⟨ht, fun htag => hne (by rw [htag]; rfl)⟩
  · cases h

theorem attributeEntries_eq_ok {h : Heap} {record : Table} {entries : List (Key × Value)}
    (hok : attributeEntries h record = .ok entries) : field record "attr" = .nil ∧ entries = [] ∨
      ∃ attr, field record "attr" = .table attr ∧ entries = (h.get attr).entries := by
  rw [attributeEntries] at hok
  split at hok
  · rename_i hnil; cases hok; exact .inl ⟨hnil, rfl⟩
  · rename_i attr hattr; cases hok; exact .inr ⟨attr, hattr, rfl⟩
  · cases hok

theorem textOf_eq_ok {record : Table} {text : String} (h : textOf record = .ok text) :
    field record "text" = .nil ∧ text = "" ∨ (field record "text").coerceString? = some text := by
  rw [textOf] at h
  split at h
  · rename_i hnil; cases h; exact .inl ⟨hnil, rfl⟩
  · split at h
    · rename_i htext; cases h; exact .inr htext
    · cases h

theorem childValues_eq_ok {h : Heap} {record : Table} {values : List Value} (hok : childValues h record = .ok values) :
    field record "children" = .nil ∧ values = [] ∨
      ∃ list, field record "children" = .table list ∧ values = (h.get list).sequence := by
  rw [childValues] at hok
  split at hok
  · rename_i hnil; cases hok; exact .inl ⟨hnil, rfl⟩
  · rename_i list hlist; cases hok; exact .inr ⟨list, hlist, rfl⟩
  · cases hok

/-- **The element of a record says what the record holds.** -/
theorem isOf_of_ofRecordWithin {stuck : Error} {h : Heap} : ∀ {room : Nat} {g : Guard} {id : TableId} {e : Element},
    ofRecordWithin stuck h room g id = .ok e → e.IsOf h id
  | 0, _, _, _, hok => nomatch hok
  | room + 1, g, id, e, hok => by
    rw [ofRecordWithin] at hok
    obtain ⟨g', -, hok⟩ := bind_eq_ok.1 hok
    obtain ⟨tag, htag, hok⟩ := bind_eq_ok.1 hok
    obtain ⟨entries, hentries, hok⟩ := bind_eq_ok.1 hok
    obtain ⟨text, htext, hok⟩ := bind_eq_ok.1 hok
    obtain ⟨values, hvalues, hok⟩ := bind_eq_ok.1 hok
    obtain ⟨attributes, hattributes, hok⟩ := bind_eq_ok.1 hok
    obtain ⟨children, hchildren, hok⟩ := bind_eq_ok.1 hok
    cases hok
    obtain ⟨ids, rfl, hids⟩ := childrenOf_eq_ok (fun _ _ => isOf_of_ofRecordWithin) hchildren
    refine .mk (tagOf_eq_ok htag).1 (tagOf_eq_ok htag).2 (attributeEntries_eq_ok hentries) (attributesOf_eq_ok hattributes)
      (textOf_eq_ok htext) ?_ hids
    refine (childValues_eq_ok hvalues).imp (fun h => ⟨h.1, List.map_eq_nil_iff.1 h.2⟩) ?_
    rintro ⟨list, hlist, hvalues⟩
    exact ⟨list, hlist, hvalues.symm⟩

/-! ## To records -/

mutual

/-- **The document that an element is loaded as.** -/
def document : Element → Document String
  | .mk tag attributes text children =>
    .dict ([("tag", .scalar tag), ("attr", .dict (attributes.map fun a => (a.1, .scalar a.2)))]
      ++ (if isBlankText text then [] else [("text", .scalar text)])
      ++ [("children", .list (documents children))])

def documents : List Element → List (Document String)
  | [] => []
  | e :: es => document e :: documents es

end

theorem loadMembers_attributes : ∀ (as : List (String × String)) (h : Heap),
    Document.loadMembers Value.string (as.map fun a => (a.1, .scalar a.2)) h =
      (as.map fun a => (.string a.1, .string a.2), h)
  | [], h => rfl
  | a :: as, h => by
    rw [List.map_cons, Document.loadMembers, Document.load]
    dsimp only
    rw [loadMembers_attributes as h]
    rfl

mutual

/-- **Loading an element is loading its document.** -/
theorem load_document : ∀ (e : Element) (h : Heap),
    e.document.load Value.string h = (.table (e.load h).1, (e.load h).2)
  | .mk tag attributes text children, h => by
    have hchildren := loadItems_documents children (h.alloc (.ofPairs (attributes.map fun a => (.string a.1, .string a.2)))).2
    rw [document, load]
    cases hblank : isBlankText text <;>
      simp [Document.load, Document.loadMembers, loadMembers_attributes, hchildren, recordEntries, hblank]

theorem loadItems_documents : ∀ (es : List Element) (h : Heap),
    Document.loadItems Value.string (documents es) h = ((loadAll es h).1.map .table, (loadAll es h).2)
  | [], h => rfl
  | e :: es, h => by
    rw [documents, Document.loadItems, load_document e h, loadAll]
    dsimp only
    rw [loadItems_documents es (load e h).2]
    rfl

end

theorem extends_load (e : Element) (h : Heap) : h.Extends (e.load h).2 := by
  have hext := (@Document.tree?_load _ Value.string (fun _ => rfl) e.document h).1
  rwa [load_document] at hext

theorem extends_loadAll (es : List Element) (h : Heap) : h.Extends (loadAll es h).2 := by
  have hext := (@Document.tree?_loadItems _ Value.string (fun _ => rfl) (documents es) h).1
  rwa [loadItems_documents] at hext

/-! ## Sizes -/

mutual

/-- How many elements there are inside an element, itself among them. -/
def count : Element → Nat
  | .mk _ _ _ children => countAll children + 1

def countAll : List Element → Nat
  | [] => 0
  | e :: es => count e + countAll es

end

mutual

/-- **A record has three tables for every element.** -/
theorem size_load : ∀ (e : Element) (h : Heap), (e.load h).2.size = h.size + 3 * e.count
  | .mk tag attributes text children, h => by
    rw [load]
    dsimp only
    rw [Heap.size_alloc, Heap.size_alloc, size_loadAll, Heap.size_alloc, count]
    omega

theorem size_loadAll : ∀ (es : List Element) (h : Heap), (loadAll es h).2.size = h.size + 3 * countAll es
  | [], _ => rfl
  | e :: es, h => by
    rw [loadAll]
    dsimp only
    rw [size_loadAll, size_load, countAll]
    omega

end

theorem length_le_countAll : ∀ es : List Element, es.length ≤ countAll es
  | [] => Nat.le_refl _
  | .mk tag attributes text children :: es => by
    have hes := length_le_countAll es
    rw [List.length_cons, countAll, count]
    omega

mutual

theorem all_length_lt : ∀ (e : Element) {n : Nat}, e.count ≤ n → e.All fun e => e.children.length < n
  | .mk tag attributes text children, n, hn => by
    have hlen := length_le_countAll children
    rw [count] at hn
    refine .mk ?_ (all_length_lt_countAll children (by omega))
    show children.length < n
    omega

theorem all_length_lt_countAll : ∀ (es : List Element) {n : Nat}, countAll es ≤ n →
    ∀ e ∈ es, e.All fun e => e.children.length < n
  | [], _, _ => List.forall_mem_nil _
  | e :: es, n, hn => by
    rw [countAll] at hn
    exact List.forall_mem_cons.2 ⟨all_length_lt e (by omega), all_length_lt_countAll es (by omega)⟩

end

/-! ## There and back -/

mutual

/-- **What a record keeps of an element**: of a repeated attribute the first place and the last value, no text of white
space, and as many children as there are places. -/
def kept : Element → Element
  | .mk tag attributes text children =>
    .mk tag (Entries.ofList attributes) (if isBlankText text then "" else text)
      (Entries.sequence (Entries.ofList (Entries.numbered (keptAll children))))

def keptAll : List Element → List Element
  | [] => []
  | e :: es => kept e :: keptAll es

end

theorem field_recordEntries (tag text : String) (attr children : TableId) :
    let record := Table.ofPairs (recordEntries tag text attr children)
    field record "tag" = .string tag ∧ field record "attr" = .table attr ∧
      field record "text" = (if isBlankText text then .nil else .string text) ∧
      field record "children" = .table children := by
  rw [recordEntries]
  cases isBlankText text <;> exact ⟨rfl, rfl, rfl, rfl⟩

theorem attributesOf_strings : ∀ as : List (String × String),
    attributesOf (as.map fun a => (.string a.1, .string a.2)) = .ok as
  | [] => rfl
  | a :: as => by
    rw [List.map_cons, attributesOf]
    simp only [Key.name?, Value.coerceString?, attributesOf_strings as]
    rfl

theorem childrenOf_tables {record : TableId → Except Error Element} : ∀ {vs : List Value} {es : List Element},
    List.Forall₂ (fun v e => ∃ id, v = .table id ∧ record id = .ok e) vs es → childrenOf record vs = .ok es
  | [], [], .nil => rfl
  | _ :: vs, e :: es, .cons ⟨id, rfl, he⟩ h => by
    rw [childrenOf, he, ok_bind, childrenOf_tables h]
    rfl

/-- **What is read from the fields of a record** as they are loaded, given what is read of its children. -/
theorem ofRecordWithin_of_fields {stuck : Error} {h : Heap} {room : Nat} {g : Guard} {id attr list : TableId}
    {tag text : String}
    {attributes : List (String × String)} {vs : List Value} {children : List Element} (hid : id ∉ g.visiting)
    (hg : g.maxDepth = none) (htag : tag ≠ "") (hget : h.get id = .ofPairs (recordEntries tag text attr list))
    (hattr : h.get attr = .ofPairs (attributes.map fun a => (.string a.1, .string a.2)))
    (hlist : h.get list = .ofValues vs)
    (hchildren : List.Forall₂ (fun v e => ∃ c, v = .table c ∧
      ofRecordWithin stuck h room { g with visiting := id :: g.visiting } c = .ok e)
      (Entries.sequence (Entries.ofList (Entries.numbered vs))) children) :
    ofRecordWithin stuck h (room + 1) g id =
      .ok (.mk tag (Entries.ofList attributes) (if isBlankText text then "" else text) children) := by
  obtain ⟨htagField, hattrField, htextField, hlistField⟩ := field_recordEntries tag text attr list
  rw [ofRecordWithin, Guard.enter_eq_ok.2 ⟨hid, Guard.reached?_of_maxDepth_eq_none hg, rfl⟩, ok_bind]
  dsimp only
  rw [hget]
  generalize Table.ofPairs (recordEntries tag text attr list) = fields at htagField hattrField htextField hlistField
  have htagOf : tagOf fields = .ok tag := by
    rw [tagOf, htagField]
    exact if_neg fun hempty => htag (String.isEmpty_iff.1 hempty)
  have hentries : attributeEntries h fields = .ok ((Entries.ofList attributes).map fun a => (.string a.1, .string a.2)) := by
    rw [attributeEntries, hattrField]
    dsimp only
    rw [hattr, Entries.map_ofList fun _ _ h => Key.string.inj h]
    rfl
  have htextOf : textOf fields = .ok (if isBlankText text then "" else text) := by
    rw [textOf, htextField]
    cases isBlankText text <;> rfl
  have hvalues : childValues h fields = .ok (Entries.sequence (Entries.ofList (Entries.numbered vs))) := by
    rw [childValues, hlistField]
    dsimp only
    rw [hlist]
    rfl
  rw [htagOf, ok_bind, hentries, ok_bind, htextOf, ok_bind, hvalues, ok_bind, attributesOf_strings, ok_bind,
    childrenOf_tables hchildren, ok_bind]
  rfl

mutual

/-- **What is read from a record that was loaded** is what it keeps of the element, if all tags have a name in them.  The
records of children were made before it, so none of them is open. -/
theorem ofRecordWithin_load {stuck : Error} : ∀ (e : Element), e.All (fun e => e.tag ≠ "") →
    ∀ (h h' : Heap) (room : Nat) (g : Guard),
    (e.load h).2.Extends h' → g.maxDepth = none → (∀ a ∈ g.visiting, (e.load h).2.size ≤ a.index) →
      (e.load h).2.size ≤ room → ofRecordWithin stuck h' room g (e.load h).1 = .ok e.kept
  | .mk tag attributes text children, .mk htag hc, h, h', room, g, hext, hg, hopen, hroom => by
    rw [load] at hext hopen hroom ⊢
    dsimp only at hext hopen hroom ⊢
    generalize hattr : h.alloc (.ofPairs (attributes.map fun a => (.string a.1, .string a.2))) = made at *
    generalize hids : loadAll children made.2 = loaded at *
    generalize hlist : loaded.2.alloc (.ofValues (loaded.1.map .table)) = listed at *
    have hlistExt := (Heap.extends_alloc _ _).trans hext
    have hloadedExt : loaded.2.Extends h' := (Heap.extends_alloc _ _).trans (hlist ▸ hlistExt)
    have hmadeExt : made.2.Extends h' := (extends_loadAll children made.2).trans (hids ▸ hloadedExt)
    have hlistGet : h'.get listed.1 = .ofValues (loaded.1.map .table) := by
      rw [← hlist] at hlistExt ⊢
      exact hlistExt.get_alloc
    have hattrGet : h'.get made.1 = .ofPairs (attributes.map fun a => (.string a.1, .string a.2)) := by
      rw [← hattr] at hmadeExt ⊢
      exact hmadeExt.get_alloc
    have hsize : listed.2.size = loaded.2.size + 1 := by rw [← hlist]; exact Heap.size_alloc _ _
    rw [Heap.size_alloc, hsize] at hopen hroom
    obtain ⟨room, rfl⟩ : ∃ n, room = n + 1 := ⟨room - 1, by omega⟩
    have hrecord := hext.get_alloc
    have hindex : (listed.2.alloc (.ofPairs (recordEntries tag text made.1 listed.1))).1.index = loaded.2.size + 1 := hsize
    generalize (listed.2.alloc (.ofPairs (recordEntries tag text made.1 listed.1))).1 = id at *
    have hclosed : id ∉ g.visiting := fun hm => by have := hopen _ hm; omega
    have hchildren : List.Forall₂
        (fun c e => ofRecordWithin stuck h' room { g with visiting := id :: g.visiting } c = .ok e)
        loaded.1 (keptAll children) := by
      rw [← hids] at hloadedExt hindex hopen hroom ⊢
      refine ofRecordWithin_loadAll children hc made.2 h' room _ hloadedExt hg (fun a ha => ?_) (by omega)
      rcases List.mem_cons.1 ha with rfl | ha
      · omega
      · have := hopen a ha; omega
    refine ofRecordWithin_of_fields hclosed hg htag hrecord hattrGet hlistGet (Entries.sequence_matches ?_
      (Entries.matches_numbered (List.forall₂_map_left_iff.2 (hchildren.imp fun c e h => ⟨c, rfl, h⟩))).ofList)
    rintro _ _ ⟨c, rfl, -⟩
    rfl

theorem ofRecordWithin_loadAll {stuck : Error} : ∀ (es : List Element), (∀ e ∈ es, e.All (fun e => e.tag ≠ "")) →
    ∀ (h h' : Heap) (room : Nat) (g : Guard), (loadAll es h).2.Extends h' → g.maxDepth = none →
      (∀ a ∈ g.visiting, (loadAll es h).2.size ≤ a.index) → (loadAll es h).2.size ≤ room →
        List.Forall₂ (fun id e => ofRecordWithin stuck h' room g id = .ok e) (loadAll es h).1 (keptAll es)
  | [], _, _, _, _, _, _, _, _, _ => .nil
  | e :: es, hes, h, h', room, g, hext, hg, hopen, hroom => by
    have hsize := (extends_loadAll es (e.load h).2).size_le
    rw [loadAll] at hext hopen hroom ⊢
    dsimp only at hext hopen hroom ⊢
    refine .cons (ofRecordWithin_load e (hes e List.mem_cons_self) h h' room g ((extends_loadAll _ _).trans hext) hg
      (fun a ha => Nat.le_trans hsize (hopen a ha)) (Nat.le_trans hsize hroom)) ?_
    exact ofRecordWithin_loadAll es (fun e he => hes e (List.mem_cons_of_mem _ he)) _ h' room g hext hg hopen hroom

end

theorem ofRecord_load {e : Element} (he : e.All fun e => e.tag ≠ "") {h h' : Heap} (hext : (e.load h).2.Extends h')
    {options : Options} (hd : options.maxDepth = none) : ofRecord h' options (e.load h).1 = .ok e.kept :=
  ofRecordWithin_load e he h h' _ _ hext hd (fun _ ha => nomatch ha) (Nat.le_succ_of_le hext.size_le)

/-! ## Trees -/

mutual

/-- **The tree of the record of an element**: its tag, its attributes in order, its text unless it is white space, and its
children at the places 1, 2, … -/
def tree : Element → Tree
  | .mk tag attributes text children =>
    .table ([(.string "tag", .string tag), (.string "attr", .table (attributes.map fun a => (.string a.1, .string a.2)))]
      ++ (if isBlankText text then [] else [(.string "text", .string text)])
      ++ [(.string "children", .table (Entries.numbered (trees children)))])

def trees : List Element → List Tree
  | [] => []
  | e :: es => tree e :: trees es

end

theorem treeMembers_attributes : ∀ as : List (String × String),
    Document.treeMembers Value.string (as.map fun a => (a.1, .scalar a.2)) = as.map fun a => (.string a.1, .string a.2)
  | [] => rfl
  | a :: as => by
    rw [List.map_cons, Document.treeMembers, treeMembers_attributes as]
    rfl

theorem length_keptAll (es : List Element) : (keptAll es).length = es.length := by
  induction es with
  | nil => rfl
  | cons e es ih => rw [keptAll, List.length_cons, ih, List.length_cons]

theorem length_trees (es : List Element) : (trees es).length = es.length := by
  induction es with
  | nil => rfl
  | cons e es ih => rw [trees, List.length_cons, ih, List.length_cons]

theorem sequence_keptAll {children : List Element} (hlen : children.length < 2 ^ 63) :
    Entries.sequence (Entries.ofList (Entries.numbered (keptAll children))) = keptAll children := by
  rw [← length_keptAll] at hlen
  rw [Entries.ofList_eq_self (Entries.nodup_numbered hlen), Entries.sequence_numbered hlen fun _ _ => rfl]

theorem isBlankText_kept (text : String) : isBlankText (if isBlankText text then "" else text) = isBlankText text := by
  cases hblank : isBlankText text with
  | true => rfl
  | false => exact hblank

mutual

/-- **An element is loaded as the tree of what its record keeps**, if there is a place for every child. -/
theorem tree_document : ∀ {e : Element}, e.All (fun e => e.children.length < 2 ^ 63) →
    e.document.tree Value.string = e.kept.tree
  | .mk tag attributes text children, .mk hlen hchildren => by
    have hattributes : Entries.ofList (attributes.map fun a => ((.string a.1, .string a.2) : Key × Tree)) =
        (Entries.ofList attributes).map fun a => (.string a.1, .string a.2) :=
      (Entries.map_ofList (fun _ _ h => Key.string.inj h) _ attributes).symm
    have hlist : Entries.ofList (Entries.numbered (trees (keptAll children))) = Entries.numbered (trees (keptAll children)) :=
      Entries.ofList_eq_self (Entries.nodup_numbered (by rw [length_trees, length_keptAll]; exact hlen))
    have htrees : Document.treeItems Value.string (documents children) = trees (keptAll children) :=
      trees_documents hchildren
    rw [document, kept, @sequence_keptAll children hlen, tree, isBlankText_kept, Document.tree, Entries.ofList_eq_self]
    · cases isBlankText text <;>
        simp [Document.treeMembers, Document.tree, treeMembers_attributes, hattributes, hlist, htrees, Tree.ofLeaf]
    · cases isBlankText text <;> simp [Entries.keys, Document.treeMembers]

theorem trees_documents : ∀ {es : List Element}, (∀ e ∈ es, e.All fun e => e.children.length < 2 ^ 63) →
    Document.treeItems Value.string (documents es) = trees (keptAll es)
  | [], _ => rfl
  | e :: es, hes => by
    rw [List.forall_mem_cons] at hes
    rw [documents, Document.treeItems, tree_document hes.1, trees_documents hes.2, keptAll, trees]

end

/-- **An element that a record keeps**: no attribute has the name of another, and there is a place for every child. -/
structure IsTabular (e : Element) : Prop where
  distinct : (Entries.keys e.attributes).Nodup
  placed : e.children.length < 2 ^ 63

mutual

theorem tree_kept : ∀ {e : Element}, e.All IsTabular → e.kept.tree = e.tree
  | .mk tag attributes text children, .mk he hchildren => by
    rw [kept, @sequence_keptAll children he.placed, @Entries.ofList_eq_self _ _ _ attributes he.distinct, tree,
      isBlankText_kept, @trees_keptAll children hchildren, tree]
    cases isBlankText text <;> rfl

theorem trees_keptAll : ∀ {es : List Element}, (∀ e ∈ es, e.All IsTabular) → trees (keptAll es) = trees es
  | [], _ => rfl
  | e :: es, hes => by
    rw [List.forall_mem_cons] at hes
    rw [keptAll, trees, tree_kept hes.1, trees_keptAll hes.2, trees]

end

theorem tree?_load_document (e : Element) {h h' : Heap} (hext : (e.load h).2.Extends h') :
    h'.tree? (.table (e.load h).1) = some (e.document.tree Value.string) := by
  have htree := (@Document.tree?_load _ Value.string (fun _ => rfl) e.document h).2 h'
  rw [load_document] at htree
  exact htree hext

/-- **The tree of a loaded element**, in the heap it was loaded into and in every later one. -/
theorem tree?_load {e : Element} (he : e.All fun e => e.children.length < 2 ^ 63) {h h' : Heap}
    (hext : (e.load h).2.Extends h') : h'.tree? (.table (e.load h).1) = some e.kept.tree := by
  rw [tree?_load_document e hext, tree_document he]

end Element
end Xml
end Interchange
