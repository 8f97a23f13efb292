import Interchange.Proofs.Shape
import Interchange.Proofs.Traversal
import Interchange.Proofs.Xml.Records
/-!
# Refusal — which records can be written as XML

A record is checked before its children are: that it is not open, its tag, the kinds of its fields, and its attributes in
the order of insertion.  Then come its children, each for its kind and then as a record.  A table is written exactly when
every record below it passes its checks and none is below itself, and otherwise it is refused for the first check that
fails (`write_refusals`).  Only children lead from one record to another, so no other way round is a cycle.
-/
namespace Interchange
namespace Xml
namespace Element

/-- The entries of a table of attributes; none of anything else. -/
def attributesAt (h : Heap) : Value → List (Key × Value)
  | .table id => (h.get id).entries
  | _ => []

/-- What a table of children holds at the places up to its border; nothing else has children. -/
def childrenAt (h : Heap) : Value → List Value
  | .table id => (List.range (h.get id).border).map fun i => (h.get id).get (.ofPlace (i + 1))
  | _ => []

def attributeStops (e : Key × Value) : List (Stop Error) :=
  [.check e.1.name?.isSome (.attrKeyType e.1.typeName), .check e.2.coerceString?.isSome (.attrValueType e.2.typeName)]

def childStop : Value → Stop Error
  | .table id => .visit id
  | v => .fault (.childrenType v.typeName)

/-- **The stops of a record**: its checks in their order, and then its children. -/
def stops (h : Heap) (id : TableId) : List (Stop Error) :=
  let tag := field (h.get id) "tag"
  let attr := field (h.get id) "attr"
  let text := field (h.get id) "text"
  let children := field (h.get id) "children"
  .check (tag.coerceString?.any (· ≠ "")) .tagMissing ::
  .check (attr.isNil || attr.isTable) (.fieldType "attr" "a table" attr.typeName) ::
  .check (text.isNil || text.coerceString?.isSome) (.fieldType "text" "a string" text.typeName) ::
  .check (children.isNil || children.isTable) (.childrenType children.typeName) ::
  ((attributesAt h attr).flatMap attributeStops ++ (childrenAt h children).map childStop)

/-- **A record that passes its checks.** -/
structure IsRecord (h : Heap) (id : TableId) : Prop where
  tag : ∃ tag, (field (h.get id) "tag").coerceString? = some tag ∧ tag ≠ ""
  attr : field (h.get id) "attr" = .nil ∨ ∃ attr, field (h.get id) "attr" = .table attr ∧
    ∀ e ∈ (h.get attr).entries, (∀ b, e.1 ≠ .bool b) ∧ ((∃ s, e.2 = .string s) ∨ ∃ n, e.2 = .number n)
  text : field (h.get id) "text" = .nil ∨ (∃ s, field (h.get id) "text" = .string s) ∨
    ∃ n, field (h.get id) "text" = .number n
  children : field (h.get id) "children" = .nil ∨ ∃ list, field (h.get id) "children" = .table list ∧
    ∀ i, 1 ≤ i → i ≤ (h.get list).border → ∃ child, (h.get list).get (.ofPlace i) = .table child

/-- A record that is a child of another: it is at a place of its table of children up to the border. -/
def ChildRecord (h : Heap) (a b : TableId) : Prop :=
  ∃ list i, field (h.get a) "children" = .table list ∧ 1 ≤ i ∧ i ≤ (h.get list).border ∧
    (h.get list).get (.ofPlace i) = .table b

/-! ## What the stops say -/

theorem check_ne_fault {ε : Type} {b : Bool} {e : ε} : (∀ e', Stop.check b e ≠ .fault e') ↔ b = true := by
  cases b <;> simp [Stop.check]

theorem check_ne_visit {ε : Type} (b : Bool) (e : ε) (id : TableId) : Stop.visit id ≠ Stop.check b e := by
  cases b <;> simp [Stop.check]

theorem isSome_name? {k : Key} : k.name?.isSome = true ↔ ∀ b, k ≠ .bool b := by
  cases k <;> simp [Key.name?]

theorem isSome_coerceString? {v : Value} : v.coerceString?.isSome = true ↔ (∃ s, v = .string s) ∨ ∃ n, v = .number n := by
  cases v <;> simp [Value.coerceString?]

theorem isNil_or_isTable {v : Value} : (v.isNil || v.isTable) = true ↔ v = .nil ∨ ∃ id, v = .table id := by
  cases v <;> simp [Value.isNil, Value.isTable]

theorem isNil_or_isSome {v : Value} :
    (v.isNil || v.coerceString?.isSome) = true ↔ v = .nil ∨ (∃ s, v = .string s) ∨ ∃ n, v = .number n := by
  cases v <;> simp [Value.isNil, Value.coerceString?]

theorem mem_childrenAt {h : Heap} {list : TableId} {v : Value} : v ∈ childrenAt h (.table list) ↔
    ∃ i, 1 ≤ i ∧ i ≤ (h.get list).border ∧ (h.get list).get (.ofPlace i) = v := by
  rw [childrenAt, List.mem_map]
  constructor
  · rintro ⟨i, hi, rfl⟩
    exact ⟨i + 1, by omega, List.mem_range.1 hi, rfl⟩
  · rintro ⟨i, h1, hi, rfl⟩
    exact ⟨i - 1, List.mem_range.2 (by omega), by rw [Nat.sub_add_cancel h1]⟩

section

variable {h : Heap} {id a b : TableId}

/-- **A record passes its checks when none of its stops is a fault.** -/
theorem forall_ne_fault_iff : (∀ s ∈ stops h id, ∀ e, s ≠ .fault e) ↔ IsRecord h id := by
  have hchild : ∀ v : Value, (∀ e, childStop v ≠ .fault e) ↔ ∃ c, v = .table c := fun v => by
    cases v <;> simp [childStop]
  simp only [stops, List.forall_mem_cons, List.forall_mem_append, List.forall_mem_map, List.forall_mem_flatMap,
    attributeStops, check_ne_fault, hchild, Option.any_eq_true, decide_eq_true_eq, isNil_or_isTable, isNil_or_isSome,
    isSome_name?, isSome_coerceString?, List.not_mem_nil, false_implies, implies_true, and_true]
  constructor
  · rintro ⟨htag, hattr, htext, hchildren, hattributes, hvalues⟩
    refine ⟨htag, hattr.imp_right fun ⟨attr, hattr⟩ => ⟨attr, hattr, ?_⟩, htext,
      hchildren.imp_right fun ⟨list, hlist⟩ => ⟨list, hlist, fun i h1 hi => ?_⟩⟩
    · rw [hattr] at hattributes
      exact hattributes
    · rw [hlist] at hvalues
      exact hvalues _ (mem_childrenAt.2 ⟨i, h1, hi, rfl⟩)
  · intro hrecord
    refine ⟨hrecord.tag, hrecord.attr.imp_right fun ⟨attr, hattr, _⟩ => ⟨attr, hattr⟩, hrecord.text,
      hrecord.children.imp_right fun ⟨list, hlist, _⟩ => ⟨list, hlist⟩, ?_, ?_⟩
    · rcases hrecord.attr with hnil | ⟨attr, hattr, hattributes⟩
      · rw [hnil]
        exact nofun
      · rw [hattr]
        exact hattributes
    · rcases hrecord.children with hnil | ⟨list, hlist, hplaces⟩
      · rw [hnil]
        exact nofun
      · rw [hlist]
        intro v hv
        obtain ⟨i, h1, hi, rfl⟩ := mem_childrenAt.1 hv
        exact hplaces i h1 hi

theorem table_mem_childrenAt :
    .table b ∈ childrenAt h (field (h.get a) "children") ↔ ChildRecord h a b := by
  constructor
  · intro hb
    cases hlist : field (h.get a) "children" with
    | table list =>
      rw [hlist] at hb
      obtain ⟨i, h1, hi, hb⟩ := mem_childrenAt.1 hb
      exact ⟨list, i, hlist, h1, hi, hb⟩
    | _ => rw [hlist] at hb; cases hb
  · rintro ⟨list, i, hlist, h1, hi, hb⟩
    rw [hlist]
    exact mem_childrenAt.2 ⟨i, h1, hi, hb⟩

/-- **Only children lead on.** -/
theorem visits_stops : Traversal.Visits (stops h) = ChildRecord h := by
  funext a b
  have hchild : ∀ v, childStop v = .visit b ↔ v = .table b := fun v => by cases v <;> simp [childStop]
  refine propext ?_
  simp only [Traversal.Visits, stops, List.mem_cons, List.mem_append, List.mem_flatMap, List.mem_map, attributeStops,
    check_ne_visit, List.not_mem_nil, hchild, false_or, or_false, and_false, exists_false, exists_eq_right]
  exact table_mem_childrenAt

theorem index_lt_size_of_childRecord (hab : ChildRecord h a b) : a.index < h.size := by
  obtain ⟨list, -, hlist, -⟩ := hab
  rw [field, Table.get, Table.get?] at hlist
  cases hget : Entries.get? (.string "children") (h.get a).entries with
  | none => rw [hget] at hlist; cases hlist
  | some v => exact Heap.index_lt_size_of_mem (Entries.mem_of_get?_eq_some hget)

theorem fault_ne_cyclicStructure : .fault .cyclicStructure ∉ stops h id := by
  have hcheck : ∀ {b : Bool} {e : Error}, e ≠ .cyclicStructure → .fault .cyclicStructure ≠ Stop.check b e :=
    fun {b e} he => by cases b <;> simp [Stop.check, Ne.symm he]
  have hchild : ∀ v, childStop v ≠ .fault .cyclicStructure := fun v => by cases v <;> simp [childStop]
  intro hm
  simp only [stops, List.mem_cons, List.mem_append, List.mem_flatMap, List.mem_map, attributeStops, hchild, hcheck,
    List.not_mem_nil, ne_eq, reduceCtorEq, not_false_eq_true, or_false, and_false, exists_false] at hm

end

/-! ## The walk as a search -/

section

variable {h : Heap} {record : Table} {table : TableId → Option Error}

theorem error?_tagOf : error? (tagOf record) =
    Traversal.answer table (.check ((field record "tag").coerceString?.any (· ≠ "")) .tagMissing) := by
  rw [Traversal.answer_check, tagOf]
  cases (field record "tag").coerceString? with
  | none => rfl
  | some tag =>
    rw [Option.any_some]
    by_cases htag : tag = ""
    · simp [htag]
    · simp [htag, String.isEmpty_iff]

theorem attributeEntries_eq : attributeEntries h record =
    if ((field record "attr").isNil || (field record "attr").isTable) = true then
      .ok (attributesAt h (field record "attr"))
    else .error (.fieldType "attr" "a table" (field record "attr").typeName) := by
  rw [attributeEntries]
  cases field record "attr" <;> rfl

theorem error?_textOf : error? (textOf record) = Traversal.answer table
    (.check ((field record "text").isNil || (field record "text").coerceString?.isSome)
      (.fieldType "text" "a string" (field record "text").typeName)) := by
  rw [Traversal.answer_check, textOf]
  cases field record "text" <;> rfl

theorem childValues_eq : childValues h record =
    if ((field record "children").isNil || (field record "children").isTable) = true then
      .ok (childrenAt h (field record "children"))
    else .error (.childrenType (field record "children").typeName) := by
  rw [childValues]
  cases field record "children" with
  | table list => exact congrArg Except.ok (Table.sequence_eq_map _)
  | _ => rfl

theorem error?_attributesOf : ∀ es : List (Key × Value),
    error? (attributesOf es) = (es.flatMap attributeStops).findSome? (Traversal.answer table)
  | [] => rfl
  | (k, v) :: es => by
    have hcons : ((k, v) :: es).flatMap attributeStops = .check k.name?.isSome (.attrKeyType k.typeName) ::
        .check v.coerceString?.isSome (.attrValueType v.typeName) :: es.flatMap attributeStops := rfl
    rw [hcons, Traversal.findSome?_cons_or, Traversal.findSome?_cons_or, Traversal.answer_check, Traversal.answer_check,
      attributesOf, ← error?_attributesOf es]
    cases k.name? with
    | none => rfl
    | some name =>
      cases v.coerceString? with
      | none => rfl
      | some value => exact (error?_bind (o := none) fun _ _ => rfl).trans (Option.or_none ..)

theorem error?_childrenOf {read : TableId → Except Error Element} (hread : ∀ id, error? (read id) = table id) :
    ∀ vs : List Value, error? (childrenOf read vs) = (vs.map childStop).findSome? (Traversal.answer table)
  | [] => rfl
  | v :: vs => by
    rw [List.map_cons, Traversal.findSome?_cons_or, ← error?_childrenOf hread vs]
    cases v with
    | table id =>
      have hrest : ∀ child, error? (childrenOf read vs >>= fun rest => return child :: rest) =
          error? (childrenOf read vs) := fun child => by
        rw [error?_bind (o := none) fun _ _ => rfl, Option.or_none]
      rw [childrenOf, error?_bind fun child _ => hrest child, hread]
      rfl
    | _ => rfl

/-- **Without a limit, what the walk refuses is what the search finds**, under any open records. -/
theorem error?_ofRecordWithin {stuck : Error} : ∀ {room : Nat} {g : Guard} {id : TableId}, g.maxDepth = none →
    error? (ofRecordWithin stuck h room g id) =
      Traversal.search (stops h) .cyclicStructure stuck room g.visiting id
  | 0, _, _, _ => rfl
  | room + 1, g, id, hg => by
    rw [ofRecordWithin, Traversal.search]
    by_cases hid : id ∈ g.visiting
    · rw [if_pos hid, Guard.enter, if_pos hid]
      rfl
    have hread : ∀ b, error? (ofRecordWithin stuck h room { g with visiting := id :: g.visiting } b) =
        Traversal.search (stops h) .cyclicStructure stuck room (id :: g.visiting) b :=
      fun b => error?_ofRecordWithin (g := { g with visiting := id :: g.visiting }) hg
    rw [if_neg hid, Guard.enter_eq_ok.2 ⟨hid, Guard.reached?_of_maxDepth_eq_none hg, rfl⟩, ok_bind]
    dsimp only
    rw [stops, Traversal.findSome?_cons_or, ← error?_tagOf]
    refine error?_bind fun tag _ => ?_
    rw [attributeEntries_eq, Traversal.findSome?_cons_or, Traversal.answer_check]
    by_cases hattr : ((field (h.get id) "attr").isNil || (field (h.get id) "attr").isTable) = true
    · rw [if_pos hattr, if_pos hattr, ok_bind, Option.none_or, Traversal.findSome?_cons_or, ← error?_textOf]
      refine error?_bind fun text _ => ?_
      rw [childValues_eq, Traversal.findSome?_cons_or, Traversal.answer_check]
      by_cases hchildren : ((field (h.get id) "children").isNil || (field (h.get id) "children").isTable) = true
      · rw [if_pos hchildren, if_pos hchildren, ok_bind, Option.none_or, List.findSome?_append, ← error?_attributesOf,
          ← error?_childrenOf hread]
        refine error?_bind fun attributes _ => ?_
        rw [error?_bind (o := none) fun _ _ => rfl, Option.or_none]
      · rw [if_neg hchildren, if_neg hchildren]
        rfl
    · rw [if_neg hattr, if_neg hattr]
      rfl

end

/-! ## The bound on open records -/

theorem childrenOf_congr {read read' : TableId → Except Error Element} : ∀ {vs : List Value},
    (∀ id, .table id ∈ vs → read id = read' id) → childrenOf read vs = childrenOf read' vs
  | [], _ => rfl
  | v :: vs, hread => by
    have hrest := childrenOf_congr fun id hid => hread id (List.mem_cons_of_mem v hid)
    cases v with
    | table id => rw [childrenOf, childrenOf, hread id List.mem_cons_self, hrest]
    | _ => rfl

/-- **The bound is never what ends the walk**: any two that make up for the records not yet open give the same. -/
theorem ofRecordWithin_eq_of_room {stuck stuck' : Error} {h : Heap} : ∀ {room room' : Nat} {g : Guard} {id : TableId},
    g.visiting.Nodup → (∀ a ∈ g.visiting, a.index < h.size) → h.size < g.visiting.length + room →
      h.size < g.visiting.length + room' → ofRecordWithin stuck h room g id = ofRecordWithin stuck' h room' g id
  -- open records are distinct tables of the heap, so there are never as many as would leave no room
  | 0, _, g, _, hnd, hin, hr, _ => by have := Heap.length_le_size hnd hin; omega
  | _ + 1, 0, g, _, hnd, hin, _, hr => by have := Heap.length_le_size hnd hin; omega
  | room + 1, room' + 1, g, id, hnd, hin, hr, hr' => by
    rw [ofRecordWithin, ofRecordWithin]
    refine bind_congr_of_ok fun g' hg' => ?_
    obtain ⟨hid, -, rfl⟩ := Guard.enter_eq_ok.1 hg'
    refine bind_congr_of_ok fun tag _ => bind_congr_of_ok fun entries _ => bind_congr_of_ok fun text _ =>
      bind_congr_of_ok fun values hvalues => bind_congr_of_ok fun attributes _ => ?_
    rw [childrenOf_congr fun b hb => ?_]
    have hchild : ChildRecord h id b := by
      rw [childValues_eq] at hvalues
      split at hvalues
      · cases hvalues
        exact table_mem_childrenAt.1 hb
      · cases hvalues
    refine ofRecordWithin_eq_of_room (List.nodup_cons.2 ⟨hid, hnd⟩) (fun a ha => ?_) ?_ ?_
    · rcases List.mem_cons.1 ha with rfl | ha
      · exact index_lt_size_of_childRecord hchild
      · exact hin a ha
    · simp only [List.length_cons]; omega
    · simp only [List.length_cons]; omega

end Element

/-! ## Whole records -/

section

variable {h : Heap} {options : Options} {root : TableId}

theorem error?_write (hm : options.maxDepth = none) : error? (write h options root) =
    Traversal.search (Element.stops h) .cyclicStructure .cyclicStructure (h.size + 1) [] root := by
  rw [write, error?_bind (o := none) fun _ _ => rfl, Option.or_none]
  exact Element.error?_ofRecordWithin hm

theorem index_lt_size_of_visits (a b : TableId) (hab : Traversal.Visits (Element.stops h) a b) : a.index < h.size := by
  rw [Element.visits_stops] at hab
  exact Element.index_lt_size_of_childRecord hab

theorem exists_write_ok_iff (hm : options.maxDepth = none) : (∃ text, write h options root = .ok text) ↔
    ∀ a, Relation.ReflTransGen (Element.ChildRecord h) root a →
      Element.IsRecord h a ∧ ¬ Relation.TransGen (Element.ChildRecord h) a a := by
  have hfault : ∀ a, (∀ e, .fault e ∉ Element.stops h a) ↔ Element.IsRecord h a := fun a => by
    rw [← Element.forall_ne_fault_iff]
    exact ⟨fun hno s hs e he => hno e (he ▸ hs), fun hno e he => hno _ he e rfl⟩
  rw [← error?_eq_none, error?_write hm, Traversal.search_eq_none_iff index_lt_size_of_visits (Nat.lt_succ_self _),
    Traversal.forall_not_meets_iff, Element.visits_stops]
  simp only [hfault, and_comm]

theorem write_eq_error_iff (hm : options.maxDepth = none) {e : Error} : write h options root = .error e ↔
    Traversal.First (Element.stops h) .cyclicStructure root e := by
  rw [← error?_eq_some, error?_write hm, Traversal.search_eq_some_iff index_lt_size_of_visits (Nat.lt_succ_self _)]

/-- **A cycle that is reported is one through children.** -/
theorem exists_cycle_of_write_error (hm : options.maxDepth = none)
    (he : write h options root = .error .cyclicStructure) :
    ∃ a, Relation.ReflTransGen (Element.ChildRecord h) root a ∧ Relation.TransGen (Element.ChildRecord h) a a := by
  obtain ⟨p, hp, -⟩ := (write_eq_error_iff hm).1 he
  obtain ⟨a, hr, ⟨-, hc⟩ | hf⟩ := hp.exists_reached fun _ ha => nomatch ha
  · rw [Element.visits_stops] at hr hc
    exact ⟨a, hr, hc⟩
  · exact absurd hf Element.fault_ne_cyclicStructure

/-- **A record is written or refused for the first check that fails.**  The walk ends whatever the heap: a bound on the
open records that is more than the size of the heap is never met.  A text is written exactly when every record reached
through the places of children passes its checks and is not below itself; the error is that of the first check that fails
as the walk goes, and there is only one.  A cycle is reported only where it runs through children. -/
theorem write_refusals (h : Heap) (options : Options) (hm : options.maxDepth = none) (root : TableId) :
    (∀ stuck room, h.size < room →
      Element.ofRecordWithin stuck h room (.new options.maxDepth) root = Element.ofRecord h options root) ∧
    ((∃ text, write h options root = .ok text) ↔ ∀ a, Relation.ReflTransGen (Element.ChildRecord h) root a →
      Element.IsRecord h a ∧ ¬ Relation.TransGen (Element.ChildRecord h) a a) ∧
    (∀ e, write h options root = .error e ↔ Traversal.First (Element.stops h) .cyclicStructure root e) ∧
    (∀ e f, Traversal.First (Element.stops h) .cyclicStructure root e →
      Traversal.First (Element.stops h) .cyclicStructure root f → e = f) ∧
    (write h options root = .error .cyclicStructure →
      ∃ a, Relation.ReflTransGen (Element.ChildRecord h) root a ∧ Relation.TransGen (Element.ChildRecord h) a a) := by
  refine ⟨fun stuck room hr => ?_, exists_write_ok_iff hm, fun e => write_eq_error_iff hm,
    fun e f => Traversal.First.unique, exists_cycle_of_write_error hm⟩
  exact Element.ofRecordWithin_eq_of_room .nil (fun _ ha => nomatch ha) (Nat.lt_of_lt_of_le hr (Nat.le_add_left _ _))
    (Nat.lt_of_lt_of_le (Nat.lt_succ_self _) (Nat.le_add_left _ _))

/-- A record whose first child has no tag and whose second is no record, and which holds itself in another field. -/
def booklet : Heap :=
  ⟨#[.ofPairs [(.string "tag", .string "a"), (.string "children", .table ⟨1⟩), (.string "whole", .table ⟨0⟩)],
    .ofValues [.table ⟨2⟩, .bool true], .empty]⟩

/-- The missing tag is the first check that fails, and a table is no record without one. -/
theorem write_refusals_booklet : Traversal.First (Element.stops booklet) .cyclicStructure ⟨0⟩ .tagMissing ∧
    ¬ ∀ a, Relation.ReflTransGen (Element.ChildRecord booklet) ⟨0⟩ a →
      Element.IsRecord booklet a ∧ ¬ Relation.TransGen (Element.ChildRecord booklet) a a := by
  obtain ⟨-, hok, herror, -⟩ := write_refusals booklet .default rfl ⟨0⟩
  have htag : write booklet .default ⟨0⟩ = .error .tagMissing := by decide +kernel
  refine ⟨(herror _).1 htag, fun hall => ?_⟩
  obtain ⟨text, htext⟩ := hok.2 hall
  rw [htag] at htext
  cases htext

end

end Xml
end Interchange
