import Interchange.Proofs.Sharing
import Interchange.Proofs.Traversal
/-!
# Refusal — what JSON, YAML and TOML refuse

The three formats of trees refuse the same tables: those that reach a cycle, a truth value as a key, or a thing of the host
as a value.  JSON and YAML go through a table in the same order and refuse the first of these that they meet, each with its
own error for it (`Format.writeWith_refusals`).  TOML has no nil, and never meets one: sequences hold none, and an entry
that holds it is left out.
-/
namespace Interchange

/-- Why a table has no document: it contains itself, a key has no name, or a value is a thing of the host. -/
inductive Violation where
  | cycle
  | key (found : String)
  | value (found : String)
deriving DecidableEq, Repr

/-- **The error of a format for a violation.**  JSON has one of its own for keys. -/
def Violation.error (format : Format) : Violation → Error
  | cycle => .cyclicStructure
  | key found =>
    match format with
    | .json => .keyType found
    | format => .nonStringKey format found
  | value found => .unsupportedValueType format found

namespace Stop

def ofKey : Key → Stop Violation
  | .bool b => .fault (.key (Key.bool b).typeName)
  | _ => .pass

def ofValue : Value → Stop Violation
  | .table id => .visit id
  | .foreign kind _ => .fault (.value kind)
  | _ => .pass

end Stop

/-- The stops of entries in the order of insertion: of each the key and then the value. -/
def Entries.stops (es : Entries Key Value) : List (Stop Violation) := es.flatMap fun e => [.ofKey e.1, .ofValue e.2]

/-- **The stops of a table**: its items in the order of their places, or its entries. -/
def Shape.stops : Shape → List (Stop Violation)
  | .sequence items => items.map Stop.ofValue
  | .mapping es => Entries.stops es

def Heap.stops (h : Heap) (id : TableId) : List (Stop Violation) := (h.get id).shape.stops

/-! ## Stops of a table -/

theorem Entries.mem_stops {es : Entries Key Value} {s : Stop Violation} :
    s ∈ stops es ↔ ∃ e ∈ es, s = .ofKey e.1 ∨ s = .ofValue e.2 := by
  simp [stops]

/-- **A table has the stops of its entries whatever its shape**: the keys of a sequence have names. -/
theorem Table.mem_stops {t : Table} {s : Stop Violation} (hs : s ≠ .pass) :
    s ∈ t.shape.stops ↔ s ∈ Entries.stops t.entries := by
  cases hF : t.shape with
  | mapping es => rw [Entries.form_eq_mapping hF]; rfl
  | sequence items =>
    obtain ⟨rfl, hdense⟩ := Entries.form_eq_sequence hF
    rw [Entries.mem_stops, Shape.stops, List.mem_map]
    constructor
    · rintro ⟨v, hv, rfl⟩
      obtain ⟨k, hk⟩ := Entries.mem_of_mem_sequence hv
      exact ⟨(k, v), hk, .inr rfl⟩
    · rintro ⟨⟨k, v⟩, he, rfl | rfl⟩
      · have hk : k.isDense t.border = true := hdense _ he
        cases k with
        | bool b => cases hk
        | _ => exact absurd rfl hs
      · exact ⟨v, Entries.mem_sequence t.nodup hF he, rfl⟩

namespace Heap

variable {h : Heap} {a b root : TableId}

theorem mem_stops {s : Stop Violation} (hs : s ≠ .pass) :
    s ∈ h.stops a ↔ ∃ e ∈ (h.get a).entries, s = .ofKey e.1 ∨ s = .ofValue e.2 :=
  (Table.mem_stops hs).trans Entries.mem_stops

theorem visits_stops : Traversal.Visits h.stops = h.Child := by
  funext a b
  refine propext ((mem_stops (s := .visit b) nofun).trans ?_)
  constructor
  · rintro ⟨⟨k, v⟩, he, hs | hs⟩
    · cases k <;> cases hs
    · cases v <;> cases hs
      exact ⟨k, he⟩
  · rintro ⟨k, hk⟩
    exact ⟨_, hk, .inr rfl⟩

theorem index_lt_size_of_visits (hab : Traversal.Visits h.stops a b) : a.index < h.size := by
  rw [visits_stops] at hab
  obtain ⟨k, hk⟩ := hab
  exact index_lt_size_of_mem hk

theorem exists_fault_mem_stops : (∃ x, .fault x ∈ h.stops a) ↔
    (∃ b v, (Key.bool b, v) ∈ (h.get a).entries) ∨ ∃ k kind handle, (k, Value.foreign kind handle) ∈ (h.get a).entries := by
  constructor
  · rintro ⟨x, hx⟩
    obtain ⟨⟨k, v⟩, he, hs | hs⟩ := (mem_stops (s := .fault x) nofun).1 hx
    · cases k <;> cases hs
      exact .inl ⟨_, v, he⟩
    · cases v <;> cases hs
      exact .inr ⟨k, _, _, he⟩
  · rintro (⟨b, v, he⟩ | ⟨k, kind, handle, he⟩)
    · exact ⟨.key _, (mem_stops (s := .fault (.key _)) nofun).2 ⟨_, he, .inl rfl⟩⟩
    · exact ⟨.value _, (mem_stops (s := .fault (.value _)) nofun).2 ⟨_, he, .inr rfl⟩⟩

/-- **Nothing is met exactly when there is no cycle and no fault.** -/
theorem forall_not_meets_iff : (∀ p x, ¬ Traversal.Meets h.stops .cycle [] root p x) ↔
    ¬ h.HasCycle root ∧ ¬ h.HasBoolKey root ∧ ¬ h.HasForeign root := by
  rw [Traversal.forall_not_meets_iff, visits_stops]
  constructor
  · intro hall
    refine ⟨fun ⟨a, hr, hc⟩ => (hall a hr).1 hc, fun ⟨a, b, v, hr, he⟩ => ?_, fun ⟨a, k, kind, handle, hr, he⟩ => ?_⟩
    · obtain ⟨x, hx⟩ := exists_fault_mem_stops.2 (.inl ⟨b, v, he⟩)
      exact (hall a hr).2 x hx
    · obtain ⟨x, hx⟩ := exists_fault_mem_stops.2 (.inr ⟨k, kind, handle, he⟩)
      exact (hall a hr).2 x hx
  · rintro ⟨hcycle, hkey, hforeign⟩ a hr
    refine ⟨fun hc => hcycle ⟨a, hr, hc⟩, fun x hx => ?_⟩
    rcases exists_fault_mem_stops.1 ⟨x, hx⟩ with ⟨b, v, he⟩ | ⟨k, kind, handle, he⟩
    · exact hkey ⟨a, b, v, hr, he⟩
    · exact hforeign ⟨a, k, kind, handle, hr, he⟩

end Heap

/-! ## The walk as a search -/

namespace Dialect

variable {α : Type} (d : Dialect α)

/-- The error of a dialect for a violation. -/
def refusal : Violation → Error
  | .cycle => .cyclicStructure
  | .key found => d.badKey found
  | .value found => .unsupportedValueType d.format found

theorem error?_encodeItems {β : Type} {f : β → Except Error (Document α)} {g : β → Option Error} : ∀ {bs : List β},
    (∀ b ∈ bs, error? (f b) = g b) → error? (encodeItems f bs) = bs.findSome? g
  | [], _ => rfl
  | b :: bs, h => by
    have ih : error? (encodeItems f bs) = bs.findSome? g :=
      error?_encodeItems fun b' hb => h b' (List.mem_cons_of_mem _ hb)
    have hitems : ∀ item, error? (encodeItems f bs >>= fun items => return item :: items) = bs.findSome? g :=
      fun item => by rw [error?_bind (o := none) fun _ _ => rfl, ih, Option.or_none]
    rw [encodeItems, error?_bind fun item _ => hitems item, h b List.mem_cons_self, List.findSome?_cons]
    cases g b <;> rfl

variable {d}

section

variable {f : TableId → Except Error (Document α)} {table : TableId → Option Violation}

theorem error?_encodeValue (hf : ∀ id, error? (f id) = (table id).map d.refusal) {v : Value}
    (hv : v = .nil → d.null.isSome = true) :
    error? (d.encodeValue f v) = (Traversal.answer table (.ofValue v)).map d.refusal := by
  cases v with
  | table id => exact hf id
  | nil =>
    obtain ⟨a, ha⟩ := Option.isSome_iff_exists.1 (hv rfl)
    rw [encodeValue, ha]
    rfl
  | _ => rfl

theorem Lawful.error?_encodeEntries (hd : d.Lawful) (hf : ∀ id, error? (f id) = (table id).map d.refusal)
    (es : Entries Key Value) : ∀ ms, error? (d.encodeEntries (d.encodeValue f) ms es) =
      ((Entries.stops es).findSome? (Traversal.answer table)).map d.refusal := by
  induction es with
  | nil => exact fun _ => rfl
  | cons e es ih =>
    obtain ⟨k, v⟩ := e
    intro ms
    have hstops : Entries.stops ((k, v) :: es) = .ofKey k :: .ofValue v :: Entries.stops es := rfl
    rw [hstops, List.findSome?_cons]
    cases hk : k.name? with
    | none =>
      obtain ⟨b, rfl⟩ := Key.eq_bool_of_name?_eq_none hk
      rfl
    | some name =>
      have hpass : Traversal.answer table (.ofKey k) = none := by
        cases k with
        | bool b => cases hk
        | _ => rfl
      rw [hpass, encodeEntries, hk, List.findSome?_cons]
      by_cases hskip : (HasNil.isNil v && !d.keepsNil) = true
      · -- an entry that is left out holds nil, which is passed by
        obtain ⟨hnil, -⟩ := Bool.and_eq_true_iff.1 hskip
        cases v <;> cases hnil
        simp only [hskip, if_true]
        exact ih ms
      · have hv : v = .nil → d.null.isSome = true := by
          rintro rfl
          refine hd.null_isSome ?_
          simpa [HasNil.isNil, Value.isNil] using hskip
        simp only [if_neg hskip]
        rw [error?_bind fun _ _ => ih _, error?_encodeValue hf hv]
        cases Traversal.answer table (.ofValue v) <;> rfl

theorem Lawful.error?_encodeForm (hd : d.Lawful) (hf : ∀ id, error? (f id) = (table id).map d.refusal) (t : Table) :
    error? (d.encodeForm (d.encodeValue f) t.shape) =
      (t.shape.stops.findSome? (Traversal.answer table)).map d.refusal := by
  cases hF : t.shape with
  | sequence items =>
    obtain ⟨rfl, -⟩ := Entries.form_eq_sequence hF
    have hitem : ∀ v ∈ Entries.sequence t.entries, error? (d.encodeValue f v) =
        (Traversal.answer table (.ofValue v)).map d.refusal := fun v hv => by
      refine error?_encodeValue hf ?_
      rintro rfl
      cases Entries.isNil_of_mem_sequence hv
    rw [encodeForm, error?_bind (o := none) fun _ _ => rfl, Option.or_none, error?_encodeItems hitem, Shape.stops,
      List.findSome?_map, List.map_findSome?]
    rfl
  | mapping es =>
    rw [encodeForm, error?_bind (o := none) fun _ _ => rfl, Option.or_none]
    exact hd.error?_encodeEntries hf es []

/-- **Without a limit, what the walk refuses is what the search finds**, under any open tables. -/
theorem Lawful.error?_encodeTable (hd : d.Lawful) {h : Heap} : ∀ {room : Nat} {g : Guard} {id : TableId},
    g.maxDepth = none → error? (d.encodeTable .cyclicStructure h room g id) =
      (Traversal.search h.stops .cycle .cycle room g.visiting id).map d.refusal
  | 0, _, _, _ => rfl
  | room + 1, g, id, hg => by
    rw [encodeTable, Traversal.search, Guard.enter]
    by_cases hid : id ∈ g.visiting
    · rw [if_pos hid, if_pos hid]
      rfl
    have hinside : ∀ b, error? (d.encodeTable .cyclicStructure h room { g with visiting := id :: g.visiting } b) =
        (Traversal.search h.stops .cycle .cycle room (id :: g.visiting) b).map d.refusal := fun b =>
      hd.error?_encodeTable hg
    rw [if_neg hid, if_neg hid, Guard.reached?_of_maxDepth_eq_none hg]
    exact hd.error?_encodeForm hinside (h.get id)

end

/-! ## Whole tables -/

section

variable {h : Heap} {options : Options} {root : TableId}

theorem Lawful.error?_encode (hd : d.Lawful) (hm : options.maxDepth = none) : error? (d.encode h options root) =
    (Traversal.search h.stops .cycle .cycle (h.size + 1) [] root).map d.refusal := hd.error?_encodeTable hm

/-- **A table is refused for the first violation that is met**, if there is one. -/
theorem Lawful.encode_eq_error_iff (hd : d.Lawful) (hm : options.maxDepth = none) {e : Error} :
    d.encode h options root = .error e ↔ ∃ x, Traversal.First h.stops .cycle root x ∧ e = d.refusal x := by
  have hfirst : ∀ x, Traversal.search h.stops .cycle .cycle (h.size + 1) [] root = some x ↔
      Traversal.First h.stops .cycle root x := fun x =>
    Traversal.search_eq_some_iff (fun _ _ => Heap.index_lt_size_of_visits) (Nat.lt_succ_self _)
  rw [← error?_eq_some, hd.error?_encode hm, Option.map_eq_some_iff]
  simp only [hfirst, eq_comm (a := e)]

theorem search_eq_none_iff : Traversal.search h.stops .cycle .cycle (h.size + 1) [] root = none ↔
    ¬ h.HasCycle root ∧ ¬ h.HasBoolKey root ∧ ¬ h.HasForeign root :=
  (Traversal.search_eq_none_iff (fun _ _ => Heap.index_lt_size_of_visits) (Nat.lt_succ_self _)).trans
    Heap.forall_not_meets_iff

theorem Lawful.exists_encode_ok_iff (hd : d.Lawful) (hm : options.maxDepth = none) :
    (∃ doc, d.encode h options root = .ok doc) ↔ ¬ h.HasCycle root ∧ ¬ h.HasBoolKey root ∧ ¬ h.HasForeign root := by
  rw [← error?_eq_none, hd.error?_encode hm, Option.map_eq_none_iff, search_eq_none_iff]

/-- **A mapping whatever its shape is refused when the table is**: it has the same stops, in another order. -/
theorem Lawful.exists_encodeMapping_ok_iff (hd : d.Lawful) (hm : options.maxDepth = none) :
    (∃ ms, d.encodeMapping h options root = .ok ms) ↔
      ¬ h.HasCycle root ∧ ¬ h.HasBoolKey root ∧ ¬ h.HasForeign root := by
  have henter : (Guard.new options.maxDepth).enter root = .ok ⟨[root], options.maxDepth⟩ :=
    Guard.enter_eq_ok.2 ⟨List.not_mem_nil, Guard.reached?_of_maxDepth_eq_none hm, rfl⟩
  have hinside : ∀ b, error? (d.encodeTable .cyclicStructure h h.size ⟨[root], options.maxDepth⟩ b) =
      (Traversal.search h.stops .cycle .cycle h.size [root] b).map d.refusal := fun b => hd.error?_encodeTable hm
  rw [← error?_eq_none, encodeMapping, encodeMappingWithin, henter, ok_bind, hd.error?_encodeEntries hinside,
    Option.map_eq_none_iff, ← search_eq_none_iff, Traversal.search, if_neg List.not_mem_nil,
    List.findSome?_eq_none_iff, List.findSome?_eq_none_iff]
  refine forall_congr' fun s => ?_
  by_cases hs : s = .pass
  · simp [hs, Traversal.answer]
  · rw [Heap.stops, Table.mem_stops hs]

end

/-! ## Nil -/

/-- A dialect with another scalar for nil, or none. -/
def withNull (d : Dialect α) (null : Option α) : Dialect α := { d with null := null }

@[simp] theorem withNull_keepsNil (null : Option α) : (d.withNull null).keepsNil = d.keepsNil := rfl

@[simp] theorem withNull_badKey (null : Option α) : (d.withNull null).badKey = d.badKey := rfl

theorem encodeValue_withNull (null : Option α) (f : TableId → Except Error (Document α)) {v : Value}
    (hv : v.isNil = false) : (d.withNull null).encodeValue f v = d.encodeValue f v := by
  cases v with
  | nil => cases hv
  | _ => rfl

theorem encodeEntries_withNull (hk : d.keepsNil = false) (null : Option α) (f : TableId → Except Error (Document α))
    (es : List (Key × Value)) : ∀ ms, (d.withNull null).encodeEntries ((d.withNull null).encodeValue f) ms es =
      d.encodeEntries (d.encodeValue f) ms es := by
  induction es with
  | nil => exact fun _ => rfl
  | cons e es ih =>
    obtain ⟨k, v⟩ := e
    intro ms
    rw [encodeEntries, encodeEntries, withNull_keepsNil, withNull_badKey, hk]
    cases k.name? with
    | none => rfl
    | some name =>
      cases hv : HasNil.isNil v with
      | true => exact ih ms
      | false => simp only [Bool.false_and, Bool.false_eq_true, if_false, encodeValue_withNull null f hv, ih]

theorem encodeTable_withNull (hk : d.keepsNil = false) (null : Option α) {stuck : Error} {h : Heap} :
    ∀ (room : Nat) (g : Guard), (d.withNull null).encodeTable stuck h room g = d.encodeTable stuck h room g
  | 0, _ => rfl
  | room + 1, g => by
    funext id
    rw [encodeTable, encodeTable]
    cases g.enter id with
    | error e => rfl
    | ok g' =>
      rw [ok_bind, ok_bind, encodeTable_withNull hk null room g']
      cases hF : (h.get id).shape with
      | sequence items =>
        obtain ⟨rfl, -⟩ := Entries.form_eq_sequence hF
        have hitems : List.Forall₂ (fun v w : Value => v = w ∧ v.isNil = false)
            (Entries.sequence (h.get id).entries) (Entries.sequence (h.get id).entries) :=
          List.forall₂_same.2 fun v hv => ⟨rfl, Entries.isNil_of_mem_sequence hv⟩
        rw [encodeForm, encodeForm, encodeItems_congr (fun v w hvw => ?_) hitems]
        rw [hvw.1]
        exact encodeValue_withNull null _ (hvw.1 ▸ hvw.2)
      | mapping es =>
        rw [encodeForm, encodeForm, encodeEntries_withNull hk]

/-- **Where nil is left out it is never met**: it does not matter what would be made of it. -/
theorem encodeMapping_withNull (hk : d.keepsNil = false) (null : Option α) (h : Heap) (options : Options) (root : TableId) :
    (d.withNull null).encodeMapping h options root = d.encodeMapping h options root := by
  unfold encodeMapping encodeMappingWithin
  cases (Guard.new options.maxDepth).enter root with
  | error e => rfl
  | ok g =>
    rw [ok_bind, ok_bind, encodeTable_withNull hk null]
    exact encodeEntries_withNull hk null _ _ []

end Dialect

/-! ## The formats -/

/-- **Text layers that have a text for every document of a table.** -/
structure TextLayers.EmitAll (layers : TextLayers) : Prop where
  yaml : ∀ h options root doc, Yaml.dialect.encode h options root = .ok doc → ∃ cs, layers.yaml.emit doc = .ok cs
  toml : ∀ h options root ms, Toml.dialect.encodeMapping h options root = .ok ms →
    ∃ cs, layers.toml.emit options.pretty ms = .ok cs

theorem TextLayers.standard_emitAll : standard.EmitAll := ⟨fun _ _ _ _ _ => ⟨_, rfl⟩, fun _ _ _ _ _ => ⟨_, rfl⟩⟩

namespace Format

theorem exists_writeWith_ok_iff {layers : TextLayers} (hemit : layers.EmitAll) {h : Heap} {options : Options}
    (hm : options.maxDepth = none) {root : TableId} {format : Format} (hf : format ≠ xml) :
    (∃ text, format.writeWith layers h options root = .ok text) ↔
      ¬ h.HasCycle root ∧ ¬ h.HasBoolKey root ∧ ¬ h.HasForeign root := by
  cases format with
  | json =>
    rw [← Json.dialect_lawful.exists_encode_ok_iff hm]
    constructor
    · rintro ⟨text, hok⟩
      obtain ⟨doc, hdoc, -⟩ := bind_eq_ok.1 hok
      exact ⟨doc, hdoc⟩
    · rintro ⟨doc, hdoc⟩
      exact ⟨_, by rw [writeWith, Json.write, hdoc]; rfl⟩
  | yaml =>
    rw [← Yaml.dialect_lawful.exists_encode_ok_iff hm]
    constructor
    · rintro ⟨text, hok⟩
      obtain ⟨doc, hdoc, -⟩ := bind_eq_ok.1 hok
      exact ⟨doc, hdoc⟩
    · rintro ⟨doc, hdoc⟩
      obtain ⟨cs, hcs⟩ := hemit.yaml h options root doc hdoc
      exact ⟨String.ofList cs, by rw [writeWith, Yaml.writeWith, hdoc, ok_bind, Yaml.TextLayer.text, hcs]⟩
  | toml =>
    rw [← Toml.dialect_lawful.exists_encodeMapping_ok_iff hm]
    constructor
    · rintro ⟨text, hok⟩
      obtain ⟨ms, hms, -⟩ := bind_eq_ok.1 hok
      exact ⟨ms, hms⟩
    · rintro ⟨ms, hms⟩
      obtain ⟨cs, hcs⟩ := hemit.toml h options root ms hms
      exact ⟨String.ofList cs, by rw [writeWith, Toml.writeWith, hms, ok_bind, Toml.TextLayer.text, hcs]⟩
  | xml => exact absurd rfl hf

theorem json_writeWith_eq_error_iff {layers : TextLayers} {h : Heap} {options : Options} (hm : options.maxDepth = none)
    {root : TableId} {e : Error} : json.writeWith layers h options root = .error e ↔
      ∃ x, Traversal.First h.stops .cycle root x ∧ e = x.error json := by
  have hrefusal : ∀ x : Violation, Json.dialect.refusal x = x.error json := fun x => by cases x <;> rfl
  simp only [← hrefusal, ← Json.dialect_lawful.encode_eq_error_iff hm]
  constructor
  · intro he
    rcases bind_eq_error.1 he with he | ⟨doc, -, he⟩
    · exact he
    · cases he
  · exact fun he => bind_eq_error.2 (.inl he)

theorem yaml_writeWith_eq_error_iff {layers : TextLayers} (hemit : layers.EmitAll) {h : Heap} {options : Options}
    (hm : options.maxDepth = none) {root : TableId} {e : Error} : yaml.writeWith layers h options root = .error e ↔
      ∃ x, Traversal.First h.stops .cycle root x ∧ e = x.error yaml := by
  have hrefusal : ∀ x : Violation, Yaml.dialect.refusal x = x.error yaml := fun x => by cases x <;> rfl
  simp only [← hrefusal, ← Yaml.dialect_lawful.encode_eq_error_iff hm]
  constructor
  · intro he
    rcases bind_eq_error.1 he with he | ⟨doc, hdoc, he⟩
    · exact he
    · obtain ⟨cs, hcs⟩ := hemit.yaml h options root doc hdoc
      rw [Yaml.TextLayer.text, hcs] at he
      cases he
  · exact fun he => bind_eq_error.2 (.inl he)

/-- **JSON, YAML and TOML refuse the same tables**, text layers having a text for every document: those that reach a
cycle, a truth value as a key, whatever it holds, or a thing of the host.  JSON and YAML refuse a table for the first of
these that a walk through it meets, and there is only one.  TOML never comes to make anything of nil. -/
theorem writeWith_refusals (layers : TextLayers) (hemit : layers.EmitAll) (h : Heap) (options : Options)
    (hm : options.maxDepth = none) (root : TableId) :
    (∀ format, format ≠ xml → ((∃ text, format.writeWith layers h options root = .ok text) ↔
      ¬ h.HasCycle root ∧ ¬ h.HasBoolKey root ∧ ¬ h.HasForeign root)) ∧
    (∀ e, json.writeWith layers h options root = .error e ↔
      ∃ x, Traversal.First h.stops .cycle root x ∧ e = x.error json) ∧
    (∀ e, yaml.writeWith layers h options root = .error e ↔
      ∃ x, Traversal.First h.stops .cycle root x ∧ e = x.error yaml) ∧
    (∀ x y, Traversal.First h.stops .cycle root x → Traversal.First h.stops .cycle root y → x = y) ∧
    ∀ null, (Toml.dialect.withNull null).encodeMapping h options root = Toml.dialect.encodeMapping h options root :=
  ⟨fun _ hf => exists_writeWith_ok_iff hemit hm hf, fun _ => json_writeWith_eq_error_iff hm,
    fun _ => yaml_writeWith_eq_error_iff hemit hm, fun _ _ => Traversal.First.unique,
    fun null => Dialect.encodeMapping_withNull rfl null h options root⟩

/-- A truth value as a key, behind a list that holds a thing of the host. -/
def mishmash : Heap :=
  ⟨#[.ofPairs [(.string "list", .table ⟨1⟩), (.bool true, .nil)], .ofValues [.bool false, .foreign "function" 0]]⟩

/-- The thing of the host is met before the key, so JSON and YAML refuse the table for it; TOML refuses it too. -/
theorem writeWith_refusals_mishmash :
    json.writeWith .standard mishmash .default ⟨0⟩ = .error (.unsupportedValueType json "function") ∧
    yaml.writeWith .standard mishmash .default ⟨0⟩ = .error (.unsupportedValueType yaml "function") ∧
    ¬ ∃ text, toml.writeWith .standard mishmash .default ⟨0⟩ = .ok text := by
  obtain ⟨hok, hjson, hyaml, -⟩ :=
    writeWith_refusals .standard TextLayers.standard_emitAll mishmash .default rfl ⟨0⟩
  have herror : json.writeWith .standard mishmash .default ⟨0⟩ = .error (.unsupportedValueType json "function") := by
    decide +kernel
  obtain ⟨x, hx, he⟩ := (hjson _).1 herror
  obtain rfl : x = .value "function" := by
    cases x <;> cases he
    rfl
  refine ⟨herror, (hyaml _).2 ⟨_, hx, rfl⟩, fun htoml => ?_⟩
  obtain ⟨text, htext⟩ := (hok json nofun).2 ((hok toml nofun).1 htoml)
  rw [herror] at htext
  cases htext

end Format
end Interchange
