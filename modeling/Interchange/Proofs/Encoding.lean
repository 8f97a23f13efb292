import Interchange.Document
import Interchange.Proofs.Except
import Interchange.Proofs.Unfolding
/-!
# Encoding — the guarded walk and the plain recursion

The document of a table is found by a walk that keeps the open tables in a guard.  Where no cycle is reached, the guard
never refuses and the walk gives what the plain recursion gives on the tree of the table (`encodeTable_eq_ofTree`).
Where the walk succeeds, the table has a tree (`exists_tree_of_encodeTable_ok`), so a cycle always makes it fail, and
without another fault it fails with that (`encodeTable_error`).  The bound on open tables is never what ends the walk
(`encodeTable_eq_of_room`).
-/
namespace Interchange

namespace Guard

theorem enter_eq_ok {g g' : Guard} {id : TableId} :
    g.enter id = .ok g' ↔ id ∉ g.visiting ∧ g.reached? = none ∧ g' = { g with visiting := id :: g.visiting } := by
  unfold enter
  split
  · rename_i hm
    simp [hm]
  · rename_i hm
    cases g.reached? with
    | none => simp [hm, eq_comm]
    | some limit => simp

theorem reached?_eq_none_iff {g : Guard} : g.reached? = none ↔ ∀ n ∈ g.maxDepth, g.depth < n := by
  simp only [reached?, Option.filter_eq_none_iff, decide_eq_true_eq, Nat.not_le, Option.mem_def]

theorem reached?_of_maxDepth_eq_none {g : Guard} (h : g.maxDepth = none) : g.reached? = none := by
  rw [reached?, h]; rfl

theorem enter_eq_error {g : Guard} (hg : g.maxDepth = none) {id : TableId} {e : Error} (h : g.enter id = .error e) :
    e = .cyclicStructure := by
  unfold enter at h
  split at h
  · cases h; rfl
  · rw [reached?_of_maxDepth_eq_none hg] at h; cases h

end Guard

namespace Dialect

variable {α : Type} (d : Dialect α)

/-! ## The plain recursion -/

/-- The document of a tree that is no table. -/
def ofLeaf : Tree → Except Error (Document α)
  | .nil => d.encodeValue (fun _ => .error .cyclicStructure) .nil
  | .bool b => .ok (.scalar (d.bool b))
  | .number n => .ok (.scalar (d.number n))
  | .string s => .ok (.scalar (d.string s))
  | .foreign kind _ => .error (.unsupportedValueType d.format kind)
  | .table _ => .ok (.list [])

/-- **The document of a tree**, by plain recursion: there is nothing to guard against. -/
def ofTree : Tree → Except Error (Document α) :=
  Tree.fold d.ofLeaf (fun rs => return .list (← encodeItems id rs))
    (fun es => return .dict (← d.encodeEntries Prod.snd [] es))

/-- **The members of a tree that is a mapping whatever its form.** -/
def membersOfTree : Tree → Except Error (List (String × Document α))
  | .table es => d.encodeEntries d.ofTree [] es
  | _ => .ok []

section

variable {β γ : Type}

theorem encodeItems_congr {R : β → γ → Prop} {f : β → Except Error (Document α)} {g : γ → Except Error (Document α)}
    (hfg : ∀ b c, R b c → f b = g c) {bs : List β} {cs : List γ} (h : List.Forall₂ R bs cs) :
    encodeItems f bs = encodeItems g cs := by
  induction h with
  | nil => rfl
  | cons hbc _ ih => rw [encodeItems, encodeItems, hfg _ _ hbc, ih]

theorem encodeEntries_congr [HasNil β] [HasNil γ] {R : β → γ → Prop} {f : β → Except Error (Document α)}
    {g : γ → Except Error (Document α)} (hfg : ∀ b c, R b c → HasNil.isNil b = HasNil.isNil c ∧ f b = g c)
    {es : List (Key × β)} {fs : List (Key × γ)} (h : Entries.Matches R es fs) :
    ∀ ms, d.encodeEntries f ms es = d.encodeEntries g ms fs := by
  induction h with
  | nil => intro ms; rfl
  | @cons e e' _ _ hee _ ih =>
    obtain ⟨k, v⟩ := e
    obtain ⟨k', v'⟩ := e'
    obtain ⟨rfl, hr⟩ : k = k' ∧ R v v' := hee
    intro ms
    rw [encodeEntries, encodeEntries, (hfg _ _ hr).1, (hfg _ _ hr).2, ih ms]
    simp only [ih]

theorem encodeForm_congr [HasNil β] [HasNil γ] {R : β → γ → Prop} {f : β → Except Error (Document α)}
    {g : γ → Except Error (Document α)} (hfg : ∀ b c, R b c → HasNil.isNil b = HasNil.isNil c ∧ f b = g c)
    {F : Form β} {G : Form γ} (h : Entries.FormMatches R F G) : d.encodeForm f F = d.encodeForm g G := by
  cases h with
  | sequence h => rw [encodeForm, encodeForm, encodeItems_congr (fun b c hr => (hfg b c hr).2) h]
  | mapping h => rw [encodeForm, encodeForm, encodeEntries_congr d hfg h]

theorem encodeItems_map {f : γ → Except Error (Document α)} (g : β → γ) :
    ∀ bs : List β, encodeItems f (bs.map g) = encodeItems (fun b => f (g b)) bs
  | [] => rfl
  | b :: bs => by rw [List.map_cons, encodeItems, encodeItems, encodeItems_map g bs]

theorem encodeItems_ok_of_mem {f : β → Except Error (Document α)} : ∀ {bs : List β} {ds : List (Document α)},
    encodeItems f bs = .ok ds → ∀ b ∈ bs, ∃ doc, f b = .ok doc
  | b :: bs, ds, h, b', hb => by
    rw [encodeItems] at h
    obtain ⟨doc, hdoc, h⟩ := bind_eq_ok.1 h
    obtain ⟨ds', hds, -⟩ := bind_eq_ok.1 h
    rcases List.mem_cons.1 hb with rfl | hb
    · exact ⟨doc, hdoc⟩
    · exact encodeItems_ok_of_mem hds b' hb

theorem encodeEntries_ok_of_mem [HasNil β] {f : β → Except Error (Document α)} :
    ∀ {es : List (Key × β)} {ms ms' : Entries String (Document α)}, d.encodeEntries f ms es = .ok ms' →
      ∀ e ∈ es, HasNil.isNil e.2 = true ∨ ∃ doc, f e.2 = .ok doc
  | (k, v) :: es, ms, ms', h, e, he => by
    rw [encodeEntries] at h
    split at h
    · cases h
    · split at h
      · rename_i hnil
        rcases List.mem_cons.1 he with rfl | he
        · exact .inl (Bool.and_eq_true_iff.1 hnil).1
        · exact encodeEntries_ok_of_mem h e he
      · obtain ⟨doc, hdoc, h⟩ := bind_eq_ok.1 h
        rcases List.mem_cons.1 he with rfl | he
        · exact .inr ⟨doc, hdoc⟩
        · exact encodeEntries_ok_of_mem h e he

theorem encodeItems_error {f : β → Except Error (Document α)} {e : Error} : ∀ {bs : List β},
    encodeItems f bs = .error e → ∃ b ∈ bs, f b = .error e
  | b :: bs, h => by
    rw [encodeItems] at h
    rcases bind_eq_error.1 h with h | ⟨doc, -, h⟩
    · exact ⟨b, List.mem_cons_self, h⟩
    · rcases bind_eq_error.1 h with h | ⟨ds, -, h⟩
      · obtain ⟨b', hb', h⟩ := encodeItems_error h
        exact ⟨b', List.mem_cons_of_mem _ hb', h⟩
      · cases h

theorem encodeEntries_error [HasNil β] {f : β → Except Error (Document α)} {e : Error} :
    ∀ {es : List (Key × β)} {ms : Entries String (Document α)}, d.encodeEntries f ms es = .error e →
      ∃ x ∈ es, (x.1.name? = none ∧ e = d.badKey x.1.typeName) ∨
        ((HasNil.isNil x.2 && !d.keepsNil) = false ∧ f x.2 = .error e)
  | (k, v) :: es, ms, h => by
    rw [encodeEntries] at h
    split at h
    · rename_i hk
      injection h with h
      exact ⟨(k, v), List.mem_cons_self, .inl ⟨hk, h.symm⟩⟩
    · split at h
      · obtain ⟨x, hx, h⟩ := encodeEntries_error h
        exact ⟨x, List.mem_cons_of_mem _ hx, h⟩
      · rename_i hnil
        rcases bind_eq_error.1 h with h | ⟨doc, -, h⟩
        · exact ⟨(k, v), List.mem_cons_self, .inr ⟨by simpa using hnil, h⟩⟩
        · obtain ⟨x, hx, h⟩ := encodeEntries_error h
          exact ⟨x, List.mem_cons_of_mem _ hx, h⟩

/-- **How entries come to have a document**: as a list of their items, or as a dictionary. -/
theorem encodeForm_eq_ok [HasNil β] {f : β → Except Error (Document α)} {es : List (Key × β)} {doc : Document α}
    (h : d.encodeForm f (Entries.form es) = .ok doc) :
    (∃ ds, Entries.form es = .sequence (Entries.sequence es) ∧ encodeItems f (Entries.sequence es) = .ok ds ∧
      doc = .list ds) ∨
    ∃ ms, Entries.form es = .mapping es ∧ d.encodeEntries f [] es = .ok ms ∧ doc = .dict ms := by
  cases hF : Entries.form es with
  | sequence items =>
    obtain ⟨rfl, -⟩ := Entries.form_eq_sequence hF
    rw [hF, encodeForm] at h
    obtain ⟨ds, hds, h⟩ := bind_eq_ok.1 h
    cases h
    exact .inl ⟨ds, rfl, hds, rfl⟩
  | mapping es' =>
    obtain rfl := Entries.form_eq_mapping hF
    rw [hF, encodeForm] at h
    obtain ⟨ms, hms, h⟩ := bind_eq_ok.1 h
    cases h
    exact .inr ⟨ms, rfl, hms, rfl⟩

theorem encodeForm_eq_error [HasNil β] {f : β → Except Error (Document α)} {es : List (Key × β)} {e : Error}
    (h : d.encodeForm f (Entries.form es) = .error e) :
    encodeItems f (Entries.sequence es) = .error e ∨ d.encodeEntries f [] es = .error e := by
  cases hF : Entries.form es with
  | sequence items =>
    obtain ⟨rfl, -⟩ := Entries.form_eq_sequence hF
    rw [hF, encodeForm] at h
    rcases bind_eq_error.1 h with h | ⟨_, -, h⟩
    · exact .inl h
    · cases h
  | mapping es' =>
    obtain rfl := Entries.form_eq_mapping hF
    rw [hF, encodeForm] at h
    rcases bind_eq_error.1 h with h | ⟨_, -, h⟩
    · exact .inr h
    · cases h

end

/-- **A table is encoded by its form.** -/
theorem ofTree_table (es : List (Key × Tree)) : d.ofTree (.table es) = d.encodeForm d.ofTree (Entries.form es) := by
  rw [ofTree, Tree.fold_table]
  cases Entries.form es with
  | sequence items =>
    simp only [encodeForm]
    rw [encodeItems_map]
    rfl
  | mapping es =>
    simp only [encodeForm]
    rw [encodeEntries_congr d (R := fun (t : Tree) p => p = (t, d.ofTree t)) (g := Prod.snd)
      (fun t p h => ⟨by rw [h]; rfl, by rw [h]; rfl⟩) (Entries.matches_map (f := fun t => (t, d.ofTree t)) fun _ _ => rfl)]
    rfl

theorem encodeValue_eq_ofTree {f : TableId → Except Error (Document α)} {h : Heap} {n : Nat} {v : Value} {t : Tree}
    (hv : v.isTable = false) (ht : h.unfold n v = some t) : d.encodeValue f v = d.ofTree t := by
  cases v with
  | table id => cases hv
  | _ => rw [Heap.unfold] at ht; cases ht; rfl

theorem encodeForm_shape {f : TableId → Except Error (Document α)} {h : Heap} {n : Nat} {id : TableId}
    {ts : List (Key × Tree)}
    (hm : Entries.Matches (fun v t => h.unfold n v = some t ∧ d.encodeValue f v = d.ofTree t) (h.get id).entries ts) :
    d.encodeForm (d.encodeValue f) (h.get id).shape = d.ofTree (.table ts) := by
  rw [ofTree_table, Table.shape]
  refine encodeForm_congr d (fun v t hvt => ⟨Heap.isNil_of_unfold hvt.1, hvt.2⟩)
    (Entries.form_matches (fun v t hvt => ?_) hm)
  exact Heap.isNil_of_unfold hvt.1

/-! ## The walk on what has a tree -/

theorem matches_ofTree {f : TableId → Except Error (Document α)} {h : Heap} {n : Nat} {id : TableId}
    {ts : List (Key × Tree)} (hts : Entries.Matches (fun v t => h.unfold n v = some t) (h.get id).entries ts)
    (hf : ∀ b t, h.Child id b → h.unfold n (.table b) = some t → f b = d.ofTree t) :
    Entries.Matches (fun v t => h.unfold n v = some t ∧ d.encodeValue f v = d.ofTree t) (h.get id).entries ts := by
  refine hts.imp fun e he t ht => ⟨ht, ?_⟩
  obtain ⟨k, v⟩ := e
  cases v with
  | table b => exact hf b t ⟨k, he⟩ ht
  | _ => exact encodeValue_eq_ofTree d rfl ht

/-- **Without a limit the walk gives what the plain recursion gives on the tree**, whatever leads to the table is open. -/
theorem encodeTable_eq_ofTree {stuck : Error} {h : Heap} : ∀ {room : Nat} {g : Guard} {id : TableId} {t : Tree},
    g.maxDepth = none → (∀ a ∈ g.visiting, Relation.TransGen h.Child a id) → h.unfold room (.table id) = some t →
      d.encodeTable stuck h room g id = d.ofTree t
  | 0, _, _, _, _, _, ht => nomatch ht
  | room + 1, g, id, t, hg, hlead, ht => by
    obtain ⟨ts, rfl, hts⟩ := Heap.unfold_table.1 ht
    -- an open table leads here, so if this one were open it would be on a cycle
    have hid : id ∉ g.visiting := fun hm => Heap.not_hasCycle_of_unfold ht ⟨id, .refl, hlead id hm⟩
    rw [encodeTable, Guard.enter_eq_ok.2 ⟨hid, Guard.reached?_of_maxDepth_eq_none hg, rfl⟩, ok_bind]
    refine encodeForm_shape d (matches_ofTree d hts fun b t' hb ht' => ?_)
    refine encodeTable_eq_ofTree hg (fun a ha => ?_) ht'
    rcases List.mem_cons.1 ha with rfl | ha
    · exact .single hb
    · exact (hlead a ha).tail hb

theorem encodeForm_ok_of_mem {f : TableId → Except Error (Document α)} {t : Table} {doc : Document α}
    (h : d.encodeForm (d.encodeValue f) t.shape = .ok doc) :
    ∀ e ∈ t.entries, e.2.isNil = true ∨ ∃ doc, d.encodeValue f e.2 = .ok doc := by
  intro e he
  rcases encodeForm_eq_ok d h with ⟨ds, hF, hds, -⟩ | ⟨ms, -, hms, -⟩
  · exact .inr (encodeItems_ok_of_mem hds _ (Entries.mem_sequence t.nodup hF he))
  · exact encodeEntries_ok_of_mem d hms e he

theorem exists_matches_of_ok {f : TableId → Except Error (Document α)} {h : Heap} {n : Nat} {id : TableId}
    (hok : ∀ e ∈ (h.get id).entries, e.2.isNil = true ∨ ∃ doc, d.encodeValue f e.2 = .ok doc)
    (hf : ∀ b doc, f b = .ok doc → ∃ t, h.unfold n (.table b) = some t ∧ d.ofTree t = .ok doc) :
    ∃ ts, Entries.Matches (fun v t => h.unfold n v = some t ∧ d.encodeValue f v = d.ofTree t) (h.get id).entries ts := by
  refine Entries.Matches.exists_of_forall fun e he => ?_
  obtain ⟨k, v⟩ := e
  cases v with
  | table b =>
    rcases hok _ he with hn | ⟨doc, hdoc⟩
    · cases hn
    · obtain ⟨t, ht, hd⟩ := hf b doc hdoc
      exact ⟨t, ht, hdoc.trans hd.symm⟩
  | _ => exact ⟨_, by rw [Heap.unfold], encodeValue_eq_ofTree (h := h) (n := n) d rfl (by rw [Heap.unfold])⟩

/-- **Where the walk succeeds there is a tree**, and the plain recursion on it gives the same, whatever the limit. -/
theorem exists_tree_of_encodeTable_ok {stuck : Error} {h : Heap} :
    ∀ {room : Nat} {g : Guard} {id : TableId} {doc : Document α}, d.encodeTable stuck h room g id = .ok doc →
      ∃ t, h.unfold room (.table id) = some t ∧ d.ofTree t = .ok doc
  | 0, _, _, _, hok => nomatch hok
  | room + 1, g, id, doc, hok => by
    rw [encodeTable] at hok
    obtain ⟨g', -, hok⟩ := bind_eq_ok.1 hok
    obtain ⟨ts, hts⟩ := exists_matches_of_ok (h := h) (n := room) d (encodeForm_ok_of_mem d hok)
      fun b doc hb => exists_tree_of_encodeTable_ok hb
    refine ⟨.table ts, Heap.unfold_table.2 ⟨ts, rfl, hts.imp fun _ _ _ ht => ht.1⟩, ?_⟩
    rw [← encodeForm_shape d hts]
    exact hok

/-! ## What goes wrong -/

/-- **A dialect whose refusals are about values and keys**: where nil is a member it has a scalar, and no key is taken for
a cycle. -/
structure Lawful : Prop where
  null_isSome : d.keepsNil = true → d.null.isSome
  badKey_ne : ∀ kind, d.badKey kind ≠ .cyclicStructure

end Dialect

namespace Heap

/-- A table with a truth value as a key is reached. -/
def HasBoolKey (h : Heap) (root : TableId) : Prop :=
  ∃ a b v, h.Reaches root a ∧ (Key.bool b, v) ∈ (h.get a).entries

/-- A table with a thing of the host as a value is reached. -/
def HasForeign (h : Heap) (root : TableId) : Prop :=
  ∃ a k kind handle, h.Reaches root a ∧ (k, Value.foreign kind handle) ∈ (h.get a).entries

/-- **Something that no format holds is reached**, cycles apart. -/
def HasFault (h : Heap) (root : TableId) : Prop := h.HasBoolKey root ∨ h.HasForeign root

theorem HasFault.of_child {h : Heap} {a b : TableId} (hab : h.Child a b) : h.HasFault b → h.HasFault a
  | .inl ⟨c, x, v, hr, hm⟩ => .inl ⟨c, x, v, hr.head hab, hm⟩
  | .inr ⟨c, k, kind, handle, hr, hm⟩ => .inr ⟨c, k, kind, handle, hr.head hab, hm⟩

end Heap

theorem Key.eq_bool_of_name?_eq_none {k : Key} (h : k.name? = none) : ∃ b, k = .bool b := by
  cases k with
  | bool b => exact ⟨b, rfl⟩
  | _ => cases h

namespace Dialect

variable {α : Type} {d : Dialect α}

theorem Lawful.encodeValue_error (hd : d.Lawful) {f : TableId → Except Error (Document α)} {h : Heap} {id : TableId}
    {k : Key} {v : Value} {e : Error} (hm : (k, v) ∈ (h.get id).entries) (hnil : (v.isNil && !d.keepsNil) = false)
    (he : d.encodeValue f v = .error e) : h.HasFault id ∨ ∃ b, h.Child id b ∧ f b = .error e := by
  cases v with
  | table b => exact .inr ⟨b, ⟨k, hm⟩, he⟩
  | foreign kind handle => exact .inl (.inr ⟨id, k, kind, handle, .refl, hm⟩)
  | nil =>
    obtain ⟨a, ha⟩ := Option.isSome_iff_exists.1 (hd.null_isSome (by simpa [Value.isNil] using hnil))
    rw [encodeValue, ha] at he
    cases he
  | _ => cases he

theorem Lawful.encodeEntries_error (hd : d.Lawful) {f : TableId → Except Error (Document α)} {h : Heap} {id : TableId}
    {e : Error} (he : d.encodeEntries (d.encodeValue f) [] (h.get id).entries = .error e) :
    h.HasFault id ∨ ∃ b, h.Child id b ∧ f b = .error e := by
  obtain ⟨⟨k, v⟩, hm, ⟨hk, -⟩ | ⟨hnil, he⟩⟩ := Dialect.encodeEntries_error d he
  · obtain ⟨b, rfl⟩ : ∃ b, k = .bool b := Key.eq_bool_of_name?_eq_none hk
    exact .inl (.inl ⟨id, b, v, .refl, hm⟩)
  · exact hd.encodeValue_error hm hnil he

theorem Lawful.encodeForm_error (hd : d.Lawful) {f : TableId → Except Error (Document α)} {h : Heap} {id : TableId}
    {e : Error} (he : d.encodeForm (d.encodeValue f) (h.get id).shape = .error e) :
    h.HasFault id ∨ ∃ b, h.Child id b ∧ f b = .error e := by
  rcases Dialect.encodeForm_eq_error d he with he | he
  · obtain ⟨v, hv, he⟩ := encodeItems_error he
    obtain ⟨k, hm⟩ := Entries.mem_of_mem_sequence hv
    have hn : v.isNil = false := Entries.isNil_of_mem_sequence hv
    exact hd.encodeValue_error hm (by rw [hn]; rfl) he
  · exact hd.encodeEntries_error he

/-- **Without a limit and without another fault, what is refused is a cycle.** -/
theorem Lawful.encodeTable_error (hd : d.Lawful) {h : Heap} : ∀ {room : Nat} {g : Guard} {id : TableId} {e : Error},
    g.maxDepth = none → d.encodeTable .cyclicStructure h room g id = .error e → e = .cyclicStructure ∨ h.HasFault id
  | 0, _, _, _, _, he => by cases he; exact .inl rfl
  | room + 1, g, id, e, hg, he => by
    rw [encodeTable] at he
    rcases bind_eq_error.1 he with he | ⟨g', hg', he⟩
    · exact .inl (Guard.enter_eq_error hg he)
    · obtain ⟨-, -, rfl⟩ := Guard.enter_eq_ok.1 hg'
      rcases hd.encodeForm_error he with hf | ⟨b, hb, he⟩
      · exact .inr hf
      · exact (hd.encodeTable_error (by exact hg) he).imp_right (.of_child hb)

theorem Lawful.encodeEntries_ofTree_ne (hd : d.Lawful) {es : List (Key × Tree)}
    (hes : ∀ e ∈ es, d.ofTree e.2 ≠ .error .cyclicStructure) :
    d.encodeEntries d.ofTree [] es ≠ .error .cyclicStructure := by
  intro he
  obtain ⟨x, hx, ⟨-, hk⟩ | ⟨-, he⟩⟩ := Dialect.encodeEntries_error d he
  · exact hd.badKey_ne _ hk.symm
  · exact hes x hx he

/-- **The plain recursion takes nothing for a cycle.** -/
theorem Lawful.ofTree_ne (hd : d.Lawful) : ∀ t : Tree, d.ofTree t ≠ .error .cyclicStructure := by
  intro t
  induction t with
  | nil => cases hn : d.null <;> simp [ofTree, Tree.fold, ofLeaf, encodeValue, hn]
  | table es ih =>
    intro he
    rw [ofTree_table] at he
    rcases Dialect.encodeForm_eq_error d he with he | he
    · obtain ⟨t, ht, he⟩ := encodeItems_error he
      obtain ⟨k, hm⟩ := Entries.mem_of_mem_sequence ht
      exact ih _ hm he
    · exact hd.encodeEntries_ofTree_ne ih he
  | _ => simp [ofTree, Tree.fold, ofLeaf]

end Dialect

namespace Dialect

variable {α : Type} (d : Dialect α)

/-! ## The bound on open tables -/

theorem matches_self {f g : TableId → Except Error (Document α)} {h : Heap} {id : TableId}
    (hfg : ∀ b, h.Child id b → f b = g b) :
    Entries.Matches (fun v w => v = w ∧ d.encodeValue f v = d.encodeValue g w) (h.get id).entries (h.get id).entries := by
  refine List.forall₂_same.2 fun e he => ⟨rfl, rfl, ?_⟩
  obtain ⟨k, v⟩ := e
  cases v with
  | table b => exact hfg b ⟨k, he⟩
  | _ => rfl

/-- **The bound is never what ends the walk**: any two that make up for the tables not yet open give the same, whatever
the error for one table more. -/
theorem encodeTable_eq_of_room {stuck stuck' : Error} {h : Heap} : ∀ {room room' : Nat} {g : Guard} {id : TableId},
    g.visiting.Nodup → (∀ a ∈ g.visiting, a.index < h.size) → h.size < g.visiting.length + room →
      h.size < g.visiting.length + room' → d.encodeTable stuck h room g id = d.encodeTable stuck' h room' g id
  -- open tables are distinct tables of the heap, so there are never as many as would leave no room
  | 0, _, g, _, hnd, hin, hr, _ => by have := Heap.length_le_size hnd hin; omega
  | _ + 1, 0, g, _, hnd, hin, _, hr => by have := Heap.length_le_size hnd hin; omega
  | room + 1, room' + 1, g, id, hnd, hin, hr, hr' => by
    rw [encodeTable, encodeTable]
    cases hg : g.enter id with
    | error e => rfl
    | ok g' =>
      obtain ⟨hid, -, rfl⟩ := Guard.enter_eq_ok.1 hg
      rw [ok_bind, ok_bind]
      refine encodeForm_congr d (fun v w hvw => ⟨by rw [hvw.1], hvw.2⟩)
        (Entries.form_matches (fun v w hvw => by rw [hvw.1]) (matches_self d fun b hb => ?_))
      obtain ⟨k, he⟩ := hb
      refine encodeTable_eq_of_room (List.nodup_cons.2 ⟨hid, hnd⟩) (fun a ha => ?_) ?_ ?_
      · rcases List.mem_cons.1 ha with rfl | ha
        · exact Heap.index_lt_size_of_mem he
        · exact hin a ha
      · simp only [List.length_cons]; omega
      · simp only [List.length_cons]; omega

/-! ## Whole tables -/

section

variable {h : Heap} {options : Options} {root : TableId}

theorem encodeWithin_eq {stuck : Error} {room : Nat} (hr : h.size ≤ room) :
    d.encodeWithin stuck h room options root = d.encode h options root :=
  encodeTable_eq_of_room d .nil (fun _ ha => nomatch ha) (Nat.lt_of_lt_of_le (Nat.lt_succ_of_le hr) (Nat.le_add_left _ _))
    (Nat.lt_of_lt_of_le (Nat.lt_succ_self _) (Nat.le_add_left _ _))

theorem encodeMappingWithin_eq {stuck : Error} {room : Nat} (hr : h.size ≤ room) :
    d.encodeMappingWithin stuck h room options root = d.encodeMapping h options root := by
  unfold encodeMapping encodeMappingWithin
  cases hg : (Guard.new options.maxDepth).enter root with
  | error e => rfl
  | ok g =>
    obtain ⟨hid, -, rfl⟩ := Guard.enter_eq_ok.1 hg
    rw [ok_bind, ok_bind]
    refine encodeEntries_congr d (fun v w hvw => ⟨by rw [hvw.1], hvw.2⟩) (matches_self d fun b hb => ?_) []
    obtain ⟨k, he⟩ := hb
    refine encodeTable_eq_of_room d (List.nodup_cons.2 ⟨hid, .nil⟩) (fun a ha => ?_) ?_ ?_
    · rcases List.mem_cons.1 ha with rfl | ha
      · exact Heap.index_lt_size_of_mem he
      · cases ha
    all_goals simp only [Guard.new, List.length_cons, List.length_nil]; omega

theorem encode_eq_ofTree (hd : options.maxDepth = none) {t : Tree} (ht : h.tree? (.table root) = some t) :
    d.encode h options root = d.ofTree t :=
  encodeTable_eq_ofTree d hd (fun _ ha => nomatch ha) ht

theorem exists_tree_of_encode_ok {doc : Document α} (hok : d.encode h options root = .ok doc) :
    ∃ t, h.tree? (.table root) = some t ∧ d.ofTree t = .ok doc :=
  exists_tree_of_encodeTable_ok d hok

theorem encodeMapping_eq_membersOfTree (hd : options.maxDepth = none) {t : Tree}
    (ht : h.tree? (.table root) = some t) : d.encodeMapping h options root = d.membersOfTree t := by
  obtain ⟨ts, rfl, hts⟩ := Heap.unfold_table.1 ht
  rw [encodeMapping, encodeMappingWithin,
    Guard.enter_eq_ok.2 ⟨List.not_mem_nil, Guard.reached?_of_maxDepth_eq_none hd, rfl⟩, ok_bind]
  refine encodeEntries_congr d (fun v t hvt => ⟨Heap.isNil_of_unfold hvt.1, hvt.2⟩)
    (matches_ofTree d hts fun b t' hb ht' => ?_) []
  refine encodeTable_eq_ofTree d hd (fun a ha => ?_) ht'
  rcases List.mem_cons.1 ha with rfl | ha
  · exact .single hb
  · cases ha

theorem exists_tree_of_encodeMapping_ok {ms : List (String × Document α)}
    (hok : d.encodeMapping h options root = .ok ms) :
    ∃ t, h.tree? (.table root) = some t ∧ d.membersOfTree t = .ok ms := by
  rw [encodeMapping, encodeMappingWithin] at hok
  obtain ⟨g, -, hok⟩ := bind_eq_ok.1 hok
  obtain ⟨ts, hts⟩ := exists_matches_of_ok (h := h) (n := h.size) d (encodeEntries_ok_of_mem d hok)
    fun b doc hb => exists_tree_of_encodeTable_ok d hb
  refine ⟨.table ts, Heap.unfold_table.2 ⟨ts, rfl, hts.imp fun _ _ _ ht => ht.1⟩, ?_⟩
  rw [membersOfTree, ← encodeEntries_congr d (fun v t hvt => ⟨Heap.isNil_of_unfold hvt.1, hvt.2⟩) hts []]
  exact hok

variable {d}

theorem Lawful.encode_error (hd : d.Lawful) (hm : options.maxDepth = none) {e : Error}
    (he : d.encode h options root = .error e) : e = .cyclicStructure ∨ h.HasFault root :=
  hd.encodeTable_error hm he

theorem Lawful.encodeMapping_error (hd : d.Lawful) (hm : options.maxDepth = none) {e : Error}
    (he : d.encodeMapping h options root = .error e) : e = .cyclicStructure ∨ h.HasFault root := by
  rw [encodeMapping, encodeMappingWithin] at he
  rcases bind_eq_error.1 he with he | ⟨g, hg, he⟩
  · exact .inl (Guard.enter_eq_error hm he)
  · obtain ⟨-, -, rfl⟩ := Guard.enter_eq_ok.1 hg
    rcases hd.encodeEntries_error he with hf | ⟨b, hb, he⟩
    · exact .inr hf
    · exact (hd.encodeTable_error hm he).imp_right (.of_child hb)

end

end Dialect
end Interchange
