import Interchange.Codec
import Interchange.Proofs.Xml.Refusal
import Mathlib.Data.List.Chain
import Mathlib.Order.Lattice.Nat
/-!
# Limit — what a depth limit does

A limit only ever ends a walk.  Two walks under the same open tables, one with a limit and one with none or a larger one,
give the same unless the first one meets its limit (`UpTo`), and that it does exactly when tables nest deeper than it
allows (`Limited`).  One step of a walk opens a table and walks through its children (`Through`); what it keeps is shown
once (`Limited.step`), for tables as for element records, and is carried through all four formats
(`Format.writeWith_limit`).
-/
namespace Interchange

/-- **The same up to a limit**: the first result is that the limit is met, or it is the second. -/
def UpTo {β : Type} (n : Nat) (x y : Except Error β) : Prop := x = .error (.depthLimitExceeded n) ∨ x = y

namespace UpTo

variable {β γ : Type} {n : Nat} {x y : Except Error β}

theorem refl (x : Except Error β) : UpTo n x x := .inr rfl

/-- **Steps that are the same up to a limit are so one after the other.** -/
theorem bind {f g : β → Except Error γ} (hxy : UpTo n x y) (hfg : ∀ b, UpTo n (f b) (g b)) :
    UpTo n (x >>= f) (y >>= g) := by
  rcases hxy with rfl | rfl
  · exact .inl rfl
  · cases x with
    | error e => exact .inr rfl
    | ok b => exact hfg b

theorem eq_of_ne (hxy : UpTo n x y) (hx : x ≠ .error (.depthLimitExceeded n)) : y = x :=
  (hxy.resolve_left hx).symm

end UpTo

/-! ## Chains -/

/-- The lengths of the chains of tables from a table on, itself included, each leading to the next. -/
def chainLengths (leads : TableId → TableId → Prop) (root : TableId) : Set Nat :=
  {k | ∃ ids, (root :: ids).IsChain leads ∧ (root :: ids).length = k}

/-! ## A walk under a limit -/

section

variable {β γ : Type} {leads : TableId → TableId → Prop}

/-- **What a walk through a table makes of the walks through its children**: it succeeds only if all of them do, meets a
limit only if one of them does, and depends on nothing else of them. -/
structure Through (leads : TableId → TableId → Prop) (body : (TableId → Except Error β) → TableId → Except Error γ) :
    Prop where
  ok : ∀ {f id c}, body f id = .ok c → ∀ a, leads id a → ∃ b, f a = .ok b
  limit : ∀ {f id n}, body f id = .error (.depthLimitExceeded n) →
    ∃ a, leads id a ∧ f a = .error (.depthLimitExceeded n)
  upTo : ∀ {f g : TableId → Except Error β} {n} id, (∀ a, UpTo n (f a) (g a)) → UpTo n (body f id) (body g id)

/-- **A walk that a limit ends where tables nest too deep, and otherwise leaves alone.**  Where it succeeds, chains of
tables are no longer than the room there was, nor with the open tables than the limit. -/
structure Limited (leads : TableId → TableId → Prop) (room : Nat) (walk : Guard → TableId → Except Error β) : Prop where
  upTo : ∀ {ids n limit} id, (∀ m ∈ limit, n ≤ m) → UpTo n (walk ⟨ids, some n⟩ id) (walk ⟨ids, limit⟩ id)
  length_le : ∀ {g id b}, walk g id = .ok b → ∀ k ∈ chainLengths leads id, k ≤ room ∧ ∀ n ∈ g.maxDepth, g.depth + k ≤ n
  exists_lt : ∀ {ids n id}, walk ⟨ids, some n⟩ id = .error (.depthLimitExceeded n) →
    ∃ k ∈ chainLengths leads id, n < ids.length + k

theorem self_mem_chainLengths (id : TableId) : 1 ∈ chainLengths leads id := ⟨[], .singleton _, rfl⟩

theorem succ_mem_chainLengths {a b : TableId} (hab : leads a b) {k : Nat} (hk : k ∈ chainLengths leads b) :
    k + 1 ∈ chainLengths leads a := by
  obtain ⟨ids, hids, rfl⟩ := hk
  exact ⟨b :: ids, .cons_cons hab hids, rfl⟩

/-- **A chain is one table, or leads on by one table more.** -/
theorem mem_chainLengths {id : TableId} {k : Nat} (hk : k ∈ chainLengths leads id) :
    k = 1 ∨ ∃ a j, leads id a ∧ j ∈ chainLengths leads a ∧ k = j + 1 := by
  obtain ⟨ids, hids, rfl⟩ := hk
  cases hids with
  | singleton => exact .inl rfl
  | @cons_cons _ a rest hlead hrest => exact .inr ⟨a, _, hlead, ⟨rest, hrest, rfl⟩, rfl⟩

/-- **A table is opened under a limit or refused**: as a cycle under any limit, or for as many open tables as the limit
allows.  If it is opened, it is so without a limit or under a larger one. -/
theorem Guard.enter_cases {ids : List TableId} {n : Nat} {limit : Option Nat} (id : TableId) (hn : ∀ m ∈ limit, n ≤ m) :
    (Guard.enter ⟨ids, some n⟩ id = .error .cyclicStructure ∧ Guard.enter ⟨ids, limit⟩ id = .error .cyclicStructure) ∨
    (Guard.enter ⟨ids, some n⟩ id = .error (.depthLimitExceeded n) ∧ n ≤ ids.length) ∨
    (Guard.enter ⟨ids, some n⟩ id = .ok ⟨id :: ids, some n⟩ ∧ Guard.enter ⟨ids, limit⟩ id = .ok ⟨id :: ids, limit⟩) := by
  by_cases hid : id ∈ ids
  · exact .inl ⟨by rw [enter, if_pos hid], by rw [enter, if_pos hid]⟩
  by_cases hlen : n ≤ ids.length
  · have hreached : reached? ⟨ids, some n⟩ = some n := by simp [reached?, depth, hlen]
    exact .inr (.inl ⟨by rw [enter, if_neg hid, hreached], hlen⟩)
  have hfree : reached? ⟨ids, some n⟩ = none := reached?_eq_none_iff.2 fun m hm => by
    obtain rfl : n = m := Option.some.inj hm
    exact Nat.lt_of_not_le hlen
  have hfree' : reached? ⟨ids, limit⟩ = none := reached?_eq_none_iff.2 fun m hm =>
    Nat.lt_of_lt_of_le (Nat.lt_of_not_le hlen) (hn m hm)
  exact .inr (.inr ⟨enter_eq_ok.2 ⟨hid, hfree, rfl⟩, enter_eq_ok.2 ⟨hid, hfree', rfl⟩⟩)

variable {walk : Guard → TableId → Except Error β} {body : (TableId → Except Error β) → TableId → Except Error γ}

/-- With no room a walk is refused at once, and not for a limit. -/
theorem Limited.stuck {stuck : Error} (hstuck : ∀ n, stuck ≠ .depthLimitExceeded n) :
    Limited leads 0 fun _ _ => (.error stuck : Except Error β) where
  upTo _ _ := .refl _
  length_le := nofun
  exists_lt he := absurd (Except.error.inj he) (hstuck _)

/-- **One step more**: a table is opened, and its children are walked through under it. -/
theorem Limited.step {room : Nat} (hwalk : Limited leads room walk) (hbody : Through leads body) :
    Limited leads (room + 1) fun g id => g.enter id >>= fun g' => body (walk g') id where
  upTo := fun {ids n limit} id hn => by
    rcases Guard.enter_cases id hn with ⟨he, he'⟩ | ⟨he, -⟩ | ⟨he, he'⟩
    · exact .inr (by rw [he, he'])
    · exact .inl (by rw [he]; rfl)
    · simp only [he, he', ok_bind]
      exact hbody.upTo id fun a => hwalk.upTo a hn
  length_le := fun {g id c} hok k hk => by
    obtain ⟨g', hg', hok⟩ := bind_eq_ok.1 hok
    obtain ⟨-, hreached, rfl⟩ := Guard.enter_eq_ok.1 hg'
    rcases mem_chainLengths hk with rfl | ⟨a, j, hlead, hj, rfl⟩
    · exact ⟨Nat.le_add_left 1 room, Guard.reached?_eq_none_iff.1 hreached⟩
    · obtain ⟨b, hb⟩ := hbody.ok hok a hlead
      obtain ⟨hroom, hlimit⟩ := hwalk.length_le hb j hj
      refine ⟨Nat.succ_le_succ hroom, fun n hn => ?_⟩
      have hle := hlimit n hn
      simp only [Guard.depth, List.length_cons] at hle ⊢
      omega
  exists_lt := fun {ids n id} he => by
    rcases @Guard.enter_cases ids n none id nofun with ⟨he', -⟩ | ⟨-, hlen⟩ | ⟨he', -⟩
    · rw [he'] at he
      cases he
    · exact ⟨1, self_mem_chainLengths id, Nat.lt_succ_of_le hlen⟩
    · rw [he', ok_bind] at he
      obtain ⟨a, hlead, he⟩ := hbody.limit he
      obtain ⟨k, hk, hlt⟩ := hwalk.exists_lt he
      exact ⟨k + 1, succ_mem_chainLengths hlead hk, by simp only [List.length_cons] at hlt; omega⟩

end

/-! ## Tables -/

namespace Dialect

variable {α β : Type} (d : Dialect α) {n : Nat}

theorem upTo_encodeValue {f g : TableId → Except Error (Document α)} (hfg : ∀ a, UpTo n (f a) (g a)) (v : Value) :
    UpTo n (d.encodeValue f v) (d.encodeValue g v) := by
  cases v with
  | table a => exact hfg a
  | _ => exact .refl _

theorem upTo_encodeItems {f g : β → Except Error (Document α)} (hfg : ∀ b, UpTo n (f b) (g b)) :
    ∀ bs : List β, UpTo n (encodeItems f bs) (encodeItems g bs)
  | [] => .refl _
  | b :: bs => (hfg b).bind fun _ => (upTo_encodeItems hfg bs).bind fun _ => .refl _

theorem upTo_encodeEntries [HasNil β] {f g : β → Except Error (Document α)} (hfg : ∀ b, UpTo n (f b) (g b)) :
    ∀ (es : List (Key × β)) (ms : Entries String (Document α)),
      UpTo n (d.encodeEntries f ms es) (d.encodeEntries g ms es)
  | [], _ => .refl _
  | (k, v) :: es, ms => by
    rw [encodeEntries, encodeEntries]
    cases k.name? with
    | none => exact .refl _
    | some name =>
      dsimp only
      split
      · exact upTo_encodeEntries hfg es ms
      · exact (hfg v).bind fun _ => upTo_encodeEntries hfg es _

theorem upTo_encodeForm [HasNil β] {f g : β → Except Error (Document α)} (hfg : ∀ b, UpTo n (f b) (g b)) (F : Form β) :
    UpTo n (d.encodeForm f F) (d.encodeForm g F) := by
  cases F with
  | sequence items => exact (upTo_encodeItems hfg items).bind fun _ => .refl _
  | mapping es => exact (upTo_encodeEntries d hfg es []).bind fun _ => .refl _

variable {d}

/-- A value meets a limit only as a table that does. -/
theorem eq_table_of_encodeValue_limit {f : TableId → Except Error (Document α)} {v : Value}
    (he : d.encodeValue f v = .error (.depthLimitExceeded n)) :
    ∃ a, v = .table a ∧ f a = .error (.depthLimitExceeded n) := by
  cases v with
  | table a => exact ⟨a, rfl, he⟩
  | nil => rw [encodeValue] at he; split at he <;> cases he
  | _ => cases he

/-- **A table walked through as a mapping is walked through by its children.** -/
theorem through_entries (hbad : ∀ kind n, d.badKey kind ≠ .depthLimitExceeded n) (h : Heap) :
    Through h.Child fun f id => d.encodeEntries (d.encodeValue f) [] (h.get id).entries where
  ok := fun {f id ms} hok a ⟨k, hk⟩ => (encodeEntries_ok_of_mem d hok _ hk).resolve_left nofun
  limit := fun {f id n} he => by
    obtain ⟨⟨k, v⟩, hm, ⟨-, hkey⟩ | ⟨-, he⟩⟩ := encodeEntries_error d he
    · exact absurd hkey.symm (hbad _ _)
    · obtain ⟨a, rfl, ha⟩ := eq_table_of_encodeValue_limit he
      exact ⟨a, ⟨k, hm⟩, ha⟩
  upTo id hfg := upTo_encodeEntries d (upTo_encodeValue d hfg) _ []

/-- **A table walked through by its shape is walked through by its children**: a sequence holds every entry. -/
theorem through_form (hbad : ∀ kind n, d.badKey kind ≠ .depthLimitExceeded n) (h : Heap) :
    Through h.Child fun f id => d.encodeForm (d.encodeValue f) (h.get id).shape where
  ok := fun {f id doc} hok a ⟨k, hk⟩ => (encodeForm_ok_of_mem d hok _ hk).resolve_left nofun
  limit := fun {f id n} he => by
    rcases encodeForm_eq_error d he with he | he
    · obtain ⟨v, hv, he⟩ := encodeItems_error he
      obtain ⟨a, rfl, ha⟩ := eq_table_of_encodeValue_limit he
      exact ⟨a, Entries.mem_of_mem_sequence hv, ha⟩
    · exact (through_entries hbad h).limit he
  upTo id hfg := upTo_encodeForm d (upTo_encodeValue d hfg) _

theorem limited_encodeTable (hbad : ∀ kind n, d.badKey kind ≠ .depthLimitExceeded n) {stuck : Error}
    (hstuck : ∀ n, stuck ≠ .depthLimitExceeded n) (h : Heap) :
    ∀ room, Limited h.Child room (d.encodeTable stuck h room)
  | 0 => .stuck hstuck
  | room + 1 => (limited_encodeTable hbad hstuck h room).step (through_form hbad h)

end Dialect

/-! ## Element records -/

namespace Xml
namespace Element

theorem upTo_childrenOf {n : Nat} {f g : TableId → Except Error Element} (hfg : ∀ a, UpTo n (f a) (g a)) :
    ∀ vs : List Value, UpTo n (childrenOf f vs) (childrenOf g vs)
  | [] => .refl _
  | v :: vs => by
    cases v with
    | table a => exact (hfg a).bind fun _ => (upTo_childrenOf hfg vs).bind fun _ => .refl _
    | _ => exact .refl _

theorem childrenOf_ok_of_mem {f : TableId → Except Error Element} : ∀ {vs : List Value} {es : List Element},
    childrenOf f vs = .ok es → ∀ a, .table a ∈ vs → ∃ e, f a = .ok e
  | v :: vs, es, hok, a, ha => by
    cases v with
    | table b =>
      obtain ⟨e, he, hok⟩ := bind_eq_ok.1 hok
      obtain ⟨rest, hrest, -⟩ := bind_eq_ok.1 hok
      rcases List.mem_cons.1 ha with hab | ha
      · cases hab
        exact ⟨e, he⟩
      · exact childrenOf_ok_of_mem hrest a ha
    | _ => cases hok

theorem childrenOf_limit {n : Nat} {f : TableId → Except Error Element} : ∀ {vs : List Value},
    childrenOf f vs = .error (.depthLimitExceeded n) → ∃ a, .table a ∈ vs ∧ f a = .error (.depthLimitExceeded n)
  | v :: vs, he => by
    cases v with
    | table b =>
      rcases bind_eq_error.1 he with he | ⟨e, -, he⟩
      · exact ⟨b, List.mem_cons_self, he⟩
      · rcases bind_eq_error.1 he with he | ⟨rest, -, he⟩
        · obtain ⟨a, ha, he⟩ := childrenOf_limit he
          exact ⟨a, List.mem_cons_of_mem _ ha, he⟩
        · cases he
    | _ => cases he

/-- The element of a record, given how its children are read. -/
def ofChildren (h : Heap) (record : TableId → Except Error Element) (id : TableId) : Except Error Element := do
  let tag ← tagOf (h.get id)
  let entries ← attributeEntries h (h.get id)
  let text ← textOf (h.get id)
  let values ← childValues h (h.get id)
  let attributes ← attributesOf entries
  let children ← childrenOf record values
  return mk tag attributes text children

theorem attributesOf_ne {n : Nat} : ∀ es : List (Key × Value), attributesOf es ≠ .error (.depthLimitExceeded n)
  | [], he => nomatch he
  | (k, v) :: es, he => by
    rw [attributesOf] at he
    split at he
    · cases he
    · split at he
      · cases he
      · rcases bind_eq_error.1 he with he | ⟨rest, -, he⟩
        · exact attributesOf_ne es he
        · cases he

/-- **The checks of a record meet no limit**, so its children do if it does. -/
theorem ofChildren_limit {h : Heap} {f : TableId → Except Error Element} {id : TableId} {n : Nat}
    (he : ofChildren h f id = .error (.depthLimitExceeded n)) :
    ∃ values, childValues h (h.get id) = .ok values ∧ childrenOf f values = .error (.depthLimitExceeded n) := by
  have htag : tagOf (h.get id) ≠ .error (.depthLimitExceeded n) := by
    unfold tagOf; (repeat' split) <;> nofun
  have hattr : attributeEntries h (h.get id) ≠ .error (.depthLimitExceeded n) := by
    unfold attributeEntries; split <;> nofun
  have htext : textOf (h.get id) ≠ .error (.depthLimitExceeded n) := by
    unfold textOf; (repeat' split) <;> nofun
  have hvalues : childValues h (h.get id) ≠ .error (.depthLimitExceeded n) := by
    unfold childValues; split <;> nofun
  obtain ⟨tag, -, he⟩ := (bind_eq_error.1 he).resolve_left htag
  obtain ⟨entries, -, he⟩ := (bind_eq_error.1 he).resolve_left hattr
  obtain ⟨text, -, he⟩ := (bind_eq_error.1 he).resolve_left htext
  obtain ⟨values, hok, he⟩ := (bind_eq_error.1 he).resolve_left hvalues
  obtain ⟨attributes, -, he⟩ := (bind_eq_error.1 he).resolve_left (attributesOf_ne entries)
  rcases bind_eq_error.1 he with he | ⟨children, -, he⟩
  · exact ⟨values, hok, he⟩
  · cases he

theorem ofChildren_ok {h : Heap} {f : TableId → Except Error Element} {id : TableId} {e : Element}
    (hok : ofChildren h f id = .ok e) :
    ∃ values es, childValues h (h.get id) = .ok values ∧ childrenOf f values = .ok es := by
  obtain ⟨tag, -, hok⟩ := bind_eq_ok.1 hok
  obtain ⟨entries, -, hok⟩ := bind_eq_ok.1 hok
  obtain ⟨text, -, hok⟩ := bind_eq_ok.1 hok
  obtain ⟨values, hvalues, hok⟩ := bind_eq_ok.1 hok
  obtain ⟨attributes, -, hok⟩ := bind_eq_ok.1 hok
  obtain ⟨es, hes, -⟩ := bind_eq_ok.1 hok
  exact ⟨values, es, hvalues, hes⟩

theorem table_mem_childValues {h : Heap} {a b : TableId} {values : List Value}
    (hvalues : childValues h (h.get a) = .ok values) : .table b ∈ values ↔ ChildRecord h a b := by
  rw [childValues_eq] at hvalues
  split at hvalues
  · cases hvalues
    exact table_mem_childrenAt
  · cases hvalues

theorem through_children (h : Heap) : Through (ChildRecord h) (ofChildren h) where
  ok := fun {f id e} hok a ha => by
    obtain ⟨values, es, hvalues, hes⟩ := ofChildren_ok hok
    exact childrenOf_ok_of_mem hes a ((table_mem_childValues hvalues).2 ha)
  limit := fun {f id n} he => by
    obtain ⟨values, hvalues, he⟩ := ofChildren_limit he
    obtain ⟨a, ha, he⟩ := childrenOf_limit he
    exact ⟨a, (table_mem_childValues hvalues).1 ha, he⟩
  upTo id hfg := (UpTo.refl _).bind fun _ => (UpTo.refl _).bind fun _ => (UpTo.refl _).bind fun _ =>
    (UpTo.refl _).bind fun values => (UpTo.refl _).bind fun _ => (upTo_childrenOf hfg values).bind fun _ => .refl _

theorem limited_ofRecordWithin {stuck : Error} (hstuck : ∀ n, stuck ≠ .depthLimitExceeded n) (h : Heap) :
    ∀ room, Limited (ChildRecord h) room (ofRecordWithin stuck h room)
  | 0 => .stuck hstuck
  | room + 1 => (limited_ofRecordWithin hstuck h room).step (through_children h)

end Element
end Xml

/-! ## The formats -/

theorem Json.text_ne_limit (options : Options) (d : Document Json.Scalar) (n : Nat) :
    Json.text options d ≠ .error (.depthLimitExceeded n) := nofun

theorem Yaml.TextLayer.text_ne_limit (layer : Yaml.TextLayer) (d : Document Yaml.Scalar) (n : Nat) :
    layer.text d ≠ .error (.depthLimitExceeded n) := by
  unfold Yaml.TextLayer.text
  split <;> nofun

theorem Toml.TextLayer.text_ne_limit (layer : Toml.TextLayer) (options : Options) (ms : Toml.Members) (n : Nat) :
    layer.text options ms ≠ .error (.depthLimitExceeded n) := by
  unfold Toml.TextLayer.text
  split <;> nofun

namespace Format

/-- **How tables nest in a format**: as children of element records in XML, and elsewhere as what entries hold. -/
def Nests (h : Heap) : Format → TableId → TableId → Prop
  | xml => Xml.Element.ChildRecord h
  | _ => h.Child

/-- **Every format walks through what nests in it**, and makes a text of that whatever the limit was. -/
theorem exists_limited (layers : TextLayers) (format : Format) (h : Heap) (pretty : Bool) (root : TableId) :
    ∃ (β : Type) (room : Nat) (walk : Guard → TableId → Except Error β) (text : β → Except Error String),
      Limited (format.Nests h) room walk ∧ (∀ b n, text b ≠ .error (.depthLimitExceeded n)) ∧
      ∀ limit, format.writeWith layers h ⟨pretty, limit⟩ root = walk (.new limit) root >>= text := by
  have hstuck : ∀ n, Error.cyclicStructure ≠ .depthLimitExceeded n := fun _ he => nomatch he
  cases format with
  | json =>
    have hbad : ∀ kind n, Json.dialect.badKey kind ≠ .depthLimitExceeded n := fun _ _ he => nomatch he
    exact ⟨_, h.size + 1, Json.dialect.encodeTable .cyclicStructure h (h.size + 1), Json.text ⟨pretty, none⟩,
      Dialect.limited_encodeTable hbad hstuck h _, Json.text_ne_limit _, fun _ => rfl⟩
  | yaml =>
    have hbad : ∀ kind n, Yaml.dialect.badKey kind ≠ .depthLimitExceeded n := fun _ _ he => nomatch he
    exact ⟨_, h.size + 1, Yaml.dialect.encodeTable .cyclicStructure h (h.size + 1), layers.yaml.text,
      Dialect.limited_encodeTable hbad hstuck h _, layers.yaml.text_ne_limit, fun _ => rfl⟩
  | toml =>
    have hbad : ∀ kind n, Toml.dialect.badKey kind ≠ .depthLimitExceeded n := fun _ _ he => nomatch he
    exact ⟨_, h.size + 1, _, layers.toml.text ⟨pretty, none⟩,
      (Dialect.limited_encodeTable hbad hstuck h h.size).step (Dialect.through_entries hbad h),
      layers.toml.text_ne_limit _, fun _ => rfl⟩
  | xml =>
    exact ⟨_, h.size + 1, Xml.Element.ofRecordWithin .cyclicStructure h (h.size + 1),
      fun e => .ok (String.ofList (Xml.print e)), Xml.Element.limited_ofRecordWithin hstuck h _,
      fun _ _ => nofun, fun _ => rfl⟩

/-- **A depth limit is exact and otherwise invisible.**  In every format, with a limit a table is written or refused as it
is without one, unless the limit is met; what is given under a limit that is not met is given under every larger one; and
the limit is met by a table that is written without one exactly when the longest chain of nested tables from it on, itself
included, is longer. -/
theorem writeWith_limit (layers : TextLayers) (format : Format) (h : Heap) (pretty : Bool) (root : TableId) :
    (∀ n, format.writeWith layers h ⟨pretty, some n⟩ root = format.writeWith layers h ⟨pretty, none⟩ root ∨
      format.writeWith layers h ⟨pretty, some n⟩ root = .error (.depthLimitExceeded n)) ∧
    (∀ n m, n ≤ m → format.writeWith layers h ⟨pretty, some n⟩ root ≠ .error (.depthLimitExceeded n) →
      format.writeWith layers h ⟨pretty, some m⟩ root = format.writeWith layers h ⟨pretty, some n⟩ root) ∧
    ∀ text, format.writeWith layers h ⟨pretty, none⟩ root = .ok text →
      ∃ depth, IsGreatest (chainLengths (format.Nests h) root) depth ∧
        ∀ n, format.writeWith layers h ⟨pretty, some n⟩ root = .error (.depthLimitExceeded n) ↔ n < depth := by
  obtain ⟨β, room, walk, text, hwalk, htext, hwrite⟩ := exists_limited layers format h pretty root
  simp only [hwrite]
  have hupTo : ∀ n limit, (∀ m ∈ limit, n ≤ m) →
      UpTo n (walk (.new (some n)) root >>= text) (walk (.new limit) root >>= text) := fun n limit hn =>
    (hwalk.upTo root hn).bind fun _ => .refl _
  refine ⟨fun n => (hupTo n none nofun).symm, fun n m hnm hne => ?_, fun written hok => ?_⟩
  · exact (hupTo n (some m) fun m' hm' => Option.some.inj hm' ▸ hnm).eq_of_ne hne
  obtain ⟨b, hb, -⟩ := bind_eq_ok.1 hok
  have hbound : BddAbove (chainLengths (format.Nests h) root) := ⟨room, fun k hk => (hwalk.length_le hb k hk).1⟩
  refine ⟨_, ⟨Nat.sSup_mem ⟨1, self_mem_chainLengths root⟩ hbound, fun k hk => le_csSup hbound hk⟩, fun n => ⟨?_, ?_⟩⟩
  · intro he
    have hwalked := (bind_eq_error.1 he).resolve_right fun ⟨c, _, hc⟩ => htext c n hc
    obtain ⟨k, hk, hlt⟩ := hwalk.exists_lt hwalked
    exact Nat.lt_of_lt_of_le hlt (Nat.le_trans (Nat.zero_add k).le (le_csSup hbound hk))
  · intro hlt
    -- a walk that succeeded under the limit would be no deeper than it
    by_contra hne
    have hsame := (hupTo n none nofun).eq_of_ne hne
    obtain ⟨c, hc, -⟩ := bind_eq_ok.1 (hsame.symm.trans hok)
    have hle := (hwalk.length_le hc _ (Nat.sSup_mem ⟨1, self_mem_chainLengths root⟩ hbound)).2 n rfl
    simp only [Guard.new, Guard.depth, List.length_nil] at hle
    omega

/-- An element record whose two children are one record. -/
def sheet : Heap :=
  ⟨#[.ofPairs [(.string "tag", .string "a"), (.string "children", .table ⟨1⟩)], .ofValues [.table ⟨2⟩, .table ⟨2⟩],
    .ofPairs [(.string "tag", .string "b")]]⟩

/-- The table of children is one more table of the chain, except in XML.  What is written under the limit that just allows
the chain is written under a larger one. -/
theorem writeWith_limit_sheet :
    IsGreatest (chainLengths (json.Nests sheet) ⟨0⟩) 3 ∧ IsGreatest (chainLengths (xml.Nests sheet) ⟨0⟩) 2 ∧
    xml.writeWith .standard sheet ⟨true, some 9⟩ ⟨0⟩ = xml.writeWith .standard sheet ⟨true, some 2⟩ ⟨0⟩ := by
  obtain ⟨-, -, hjson⟩ := writeWith_limit .standard json sheet false ⟨0⟩
  obtain ⟨-, hmore, hxml⟩ := writeWith_limit .standard xml sheet true ⟨0⟩
  have hfits : xml.writeWith .standard sheet ⟨true, some 2⟩ ⟨0⟩ ≠ .error (.depthLimitExceeded 2) := by decide +kernel
  obtain ⟨text, htext⟩ : ∃ text, json.writeWith .standard sheet ⟨false, none⟩ ⟨0⟩ = .ok text := ⟨_, rfl⟩
  obtain ⟨depth, hdepth, hlimit⟩ := hjson text htext
  obtain ⟨depth', hdepth', hlimit'⟩ := hxml "<a>\n\t<b/>\n\t<b/>\n</a>\n" (by decide +kernel)
  have hlt : 2 < depth := (hlimit 2).1 (by decide +kernel)
  have hnot : ¬ 3 < depth := fun h => absurd ((hlimit 3).2 h) (by decide +kernel)
  have hlt' : 1 < depth' := (hlimit' 1).1 (by decide +kernel)
  have hnot' : ¬ 2 < depth' := fun h => hfits ((hlimit' 2).2 h)
  obtain rfl : depth = 3 := by omega
  obtain rfl : depth' = 2 := by omega
  exact ⟨hdepth, hdepth', hmore 2 9 (by decide) hfits⟩

end Format
end Interchange
