import Interchange.Proofs.Alike
import Interchange.Proofs.Shape
/-!
# Settled — trees that have the shape of their normal form

In a settled tree every table is a list of values at the places 1, 2, … or a dictionary under distinct names, and holds nil
at most where its format keeps it.  The normal form of any tree is settled (`Tree.isSettled_normal`), and that of a settled
tree has the same keys in the same order (`Tree.IsSettled.normal_table`), so writing and reading it again changes at most
leaves.  A document that was read is settled unless a list in it holds a null (`Document.Over.isSettled_tree`).
-/
namespace Interchange

/-! ## Forms -/

namespace Entries

variable {α β : Type}

theorem numbered_map (f : α → β) (vs : List α) : numbered (vs.map f) = (numbered vs).map fun e => (e.1, f e.2) :=
  eq_map_of_matches (matches_numbered (List.forall₂_map_right_iff.2 (List.forall₂_same.2 fun _ _ => rfl)))

/-- **Entries under names are a mapping**, if there are any. -/
theorem form_of_names [HasNil α] {es : Entries Key α} (hne : es ≠ []) (hnames : ∀ k ∈ keys es, ∃ s, k = .string s) :
    form es = .mapping es := by
  refine form_of_not_sequence fun ⟨items, hseq⟩ => ?_
  obtain ⟨e, he⟩ := List.exists_mem_of_ne_nil es hne
  obtain ⟨s, hs⟩ := hnames e.1 (List.mem_map_of_mem he)
  have hdense := (form_eq_sequence hseq).2 e he
  rw [hs] at hdense
  cases hdense

end Entries

namespace Tree

/-! ## Settled trees -/

/-- **A tree of lists and dictionaries**, none holding nil except that dictionaries may where it is kept. -/
inductive IsSettled (keepsNil : Bool) : Tree → Prop where
  | leaf {t : Tree} (h : t.isTable = false) : IsSettled keepsNil t
  | list {ts : List Tree} (hlen : ts.length < 2 ^ 63) (hnil : ∀ t ∈ ts, HasNil.isNil t = false)
    (h : ∀ t ∈ ts, IsSettled keepsNil t) : IsSettled keepsNil (sequence ts)
  | dict {es : List (Key × Tree)} (hkeys : (Entries.keys es).Nodup) (hnames : ∀ k ∈ Entries.keys es, ∃ s, k = .string s)
    (hnil : ∀ e ∈ es, (HasNil.isNil e.2 && !keepsNil) = false) (h : ∀ e ∈ es, IsSettled keepsNil e.2) :
    IsSettled keepsNil (.table es)

/-- **A tree over some leaves and some keys.** -/
inductive Over (leaf : Tree → Prop) (key : Key → Prop) : Tree → Prop where
  | leaf {t : Tree} (ht : t.isTable = false) (h : leaf t) : Over leaf key t
  | table {es : List (Key × Tree)} (hkeys : ∀ k ∈ Entries.keys es, key k) (h : ∀ e ∈ es, Over leaf key e.2) :
    Over leaf key (.table es)

/-- **A tree without nil**, every table of which has fewer entries than there are places. -/
inductive IsSolid : Tree → Prop where
  | leaf {t : Tree} (ht : t.isTable = false) (hnil : HasNil.isNil t = false) : IsSolid t
  | table {es : List (Key × Tree)} (hlen : es.length < 2 ^ 63) (h : ∀ e ∈ es, IsSolid e.2) : IsSolid (.table es)

theorem IsSolid.isNil_eq_false {t : Tree} (h : t.IsSolid) : HasNil.isNil t = false := by
  cases h with
  | leaf _ hnil => exact hnil
  | table => rfl

theorem IsSolid.of_table {es : List (Key × Tree)} (h : (Tree.table es).IsSolid) :
    es.length < 2 ^ 63 ∧ ∀ e ∈ es, e.2.IsSolid := by
  cases h with
  | leaf ht => cases ht
  | table hlen h => exact ⟨hlen, h⟩

section

variable {leaf : Tree → Tree} {keepsNil : Bool} {P Q : Tree → Prop} {K : Key → Prop}

theorem Over.of_leaf {t : Tree} (h : t.Over P K) (ht : t.isTable = false) : P t := by
  cases h with
  | leaf _ h => exact h
  | table => cases ht

theorem Over.of_table {es : List (Key × Tree)} (h : (Tree.table es).Over P K) :
    (∀ k ∈ Entries.keys es, K k) ∧ ∀ e ∈ es, e.2.Over P K := by
  cases h with
  | leaf ht => cases ht
  | table hkeys h => exact ⟨hkeys, h⟩

theorem Over.isNil_eq_false (hP : ∀ t, P t → HasNil.isNil t = false) {t : Tree} (h : t.Over P K) :
    HasNil.isNil t = false := by
  cases h with
  | leaf _ ht => exact hP _ ht
  | table => rfl

theorem Over.sequence {ts : List Tree} (hkey : ∀ n, K (.ofPlace n)) (h : ∀ t ∈ ts, t.Over P K) :
    (Tree.sequence ts).Over P K := by
  refine .table (fun k hk => ?_) fun e he => h _ (Entries.snd_mem_of_mem_numbered he)
  rw [Entries.keys_numbered] at hk
  obtain ⟨n, -, -, rfl⟩ := Entries.mem_placeKeys.1 hk
  exact hkey n

/-- An entry that is named has the name of its key. -/
theorem named_eq_some {e : Key × Tree} {t : Tree} {f : Key × Tree} (h : named keepsNil (e.1, e.2, t) = some f) :
    (HasNil.isNil e.2 && !keepsNil) = false ∧ ∃ s, e.1.name? = some s ∧ f = (.string s, t) := by
  rw [named] at h
  split at h
  · cases h
  · rename_i hnil
    obtain ⟨s, hs, rfl⟩ := Option.map_eq_some_iff.1 h
    exact ⟨by simpa using hnil, s, hs, rfl⟩

/-- **The entries of a named mapping** are entries of it under their names. -/
theorem mem_named {es : List (Key × Tree)} {g : Tree → Tree} {f : Key × Tree}
    (hf : f ∈ Entries.ofList (es.filterMap fun e => named keepsNil (e.1, e.2, g e.2))) :
    ∃ e ∈ es, (HasNil.isNil e.2 && !keepsNil) = false ∧ ∃ s, e.1.name? = some s ∧ f = (.string s, g e.2) := by
  obtain ⟨e, he, hnamed⟩ := List.mem_filterMap.1 (Entries.mem_of_mem_ofList hf)
  exact ⟨e, he, named_eq_some hnamed⟩

theorem isNil_normal (hleaf : ∀ t : Tree, P t → HasNil.isNil (leaf t) = HasNil.isNil t) {t : Tree} (h : t.Over P K) :
    HasNil.isNil (t.normal leaf keepsNil) = HasNil.isNil t := by
  cases t with
  | table es =>
    obtain ⟨ts, hts⟩ := exists_normal_table leaf keepsNil es
    rw [hts]
    rfl
  | _ => exact hleaf _ (h.of_leaf rfl)

/-- **The normal form of a tree is settled**, if leaves stay leaves and only nil becomes nil. -/
theorem isSettled_normal (hleaf : ∀ t : Tree, P t → t.isTable = false → (leaf t).isTable = false)
    (hnil : ∀ t : Tree, P t → HasNil.isNil (leaf t) = HasNil.isNil t) {t : Tree} (h : t.Over P K) :
    (t.normal leaf keepsNil).IsSettled keepsNil := by
  induction t with
  | table es ih =>
    have hes := h.of_table.2
    rw [normal_table]
    cases hF : Entries.form es with
    | sequence items =>
      obtain ⟨rfl, -⟩ := Entries.form_eq_sequence hF
      have hitem : ∀ t ∈ Entries.sequence es, ∃ k, (k, t) ∈ es := fun t ht => Entries.mem_of_mem_sequence ht
      refine .list ?_ (List.forall_mem_map.2 fun t ht => ?_) (List.forall_mem_map.2 fun t ht => ?_)
      · rw [List.length_map, Entries.length_sequence.1]
        exact Entries.length_sequence.2
      · obtain ⟨k, hk⟩ := hitem t ht
        rw [isNil_normal hnil (hes _ hk)]
        exact Entries.isNil_of_mem_sequence ht
      · obtain ⟨k, hk⟩ := hitem t ht
        exact ih _ hk (hes _ hk)
    | mapping es' =>
      obtain rfl := Entries.form_eq_mapping hF
      refine .dict Entries.nodup_keys_ofList (fun k hk => ?_) (fun f hf => ?_) fun f hf => ?_
      · obtain ⟨f, hf, rfl⟩ := List.mem_map.1 hk
        obtain ⟨e, -, -, s, -, rfl⟩ := mem_named hf
        exact ⟨s, rfl⟩
      · obtain ⟨e, he, hkept, s, -, rfl⟩ := mem_named hf
        dsimp only
        rwa [isNil_normal hnil (hes e he)]
      · obtain ⟨e, he, -, s, -, rfl⟩ := mem_named hf
        exact ih e he (hes e he)
  | _ => exact .leaf (hleaf _ (h.of_leaf rfl) rfl)

/-- **The normal form of a tree is over what its leaves become** and over the names of its keys. -/
theorem Over.normal (hleaf : ∀ t : Tree, P t → t.isTable = false → (leaf t).isTable = false ∧ Q (leaf t))
    (hplace : ∀ n, K (.ofPlace n)) (hname : ∀ k s, K k → k.name? = some s → K (.string s)) {t : Tree} (h : t.Over P K) :
    (t.normal leaf keepsNil).Over Q K := by
  induction t with
  | table es ih =>
    obtain ⟨hkeys, hes⟩ := h.of_table
    rw [normal_table]
    cases hF : Entries.form es with
    | sequence items =>
      obtain ⟨rfl, -⟩ := Entries.form_eq_sequence hF
      refine .sequence hplace (List.forall_mem_map.2 fun t ht => ?_)
      obtain ⟨k, hk⟩ := Entries.mem_of_mem_sequence ht
      exact ih _ hk (hes _ hk)
    | mapping es' =>
      obtain rfl := Entries.form_eq_mapping hF
      refine .table (fun k hk => ?_) fun f hf => ?_
      · obtain ⟨f, hf, rfl⟩ := List.mem_map.1 hk
        obtain ⟨e, he, -, s, hs, rfl⟩ := mem_named hf
        exact hname e.1 s (hkeys _ (Entries.mem_keys_of_mem he)) hs
      · obtain ⟨e, he, -, s, -, rfl⟩ := mem_named hf
        exact ih e he (hes e he)
  | _ =>
    obtain ⟨ht, hQ⟩ := hleaf _ (h.of_leaf rfl) rfl
    exact .leaf ht hQ

theorem IsSettled.distinct {t : Tree} (h : t.IsSettled keepsNil) : t.Distinct := by
  induction h with
  | leaf h => exact .leaf h
  | list hlen _ _ ih =>
    exact .table (Entries.nodup_numbered hlen) fun e he => ih _ (Entries.snd_mem_of_mem_numbered he)
  | dict hkeys _ _ _ ih => exact .table hkeys ih

theorem IsSettled.of_table {es : List (Key × Tree)} (h : (Tree.table es).IsSettled keepsNil) :
    ∀ e ∈ es, e.2.IsSettled keepsNil := by
  generalize ht : Tree.table es = t at h
  cases h with
  | leaf h =>
    subst ht
    cases h
  | list _ _ h =>
    cases ht
    exact fun e he => h _ (Entries.snd_mem_of_mem_numbered he)
  | dict _ _ _ h =>
    cases ht
    exact h

/-- **The normal form of a settled table** has the same keys in the same order. -/
theorem IsSettled.normal_table {es : List (Key × Tree)} (h : (Tree.table es).IsSettled keepsNil) :
    (Tree.table es).normal leaf keepsNil = .table (es.map fun e => (e.1, e.2.normal leaf keepsNil)) := by
  rw [Tree.normal_table]
  generalize ht : Tree.table es = t at h
  cases h with
  | leaf h =>
    subst ht
    cases h
  | list hlen hnil _ =>
    cases ht
    rw [Entries.form_numbered hlen hnil]
    exact congrArg Tree.table (Entries.numbered_map _ _)
  | dict hkeys hnames hnil _ =>
    cases ht
    by_cases hes : es = []
    · subst hes
      rfl
    rw [Entries.form_of_names hes hnames]
    have hnamed : ∀ e ∈ es, named keepsNil (e.1, e.2, e.2.normal leaf keepsNil) = some (e.1, e.2.normal leaf keepsNil) :=
      fun e he => by
        obtain ⟨s, hs⟩ := hnames e.1 (Entries.mem_keys_of_mem he)
        rw [named, hnil e he, hs]
        rfl
    have hnd : (Entries.keys (es.map fun e => (e.1, e.2.normal leaf keepsNil))).Nodup := by
      rw [Entries.keys, List.map_map]
      exact hkeys
    dsimp only
    rw [List.filterMap_congr hnamed, List.filterMap_eq_map', Entries.ofList_eq_self hnd]

/-- **A settled tree is its own normal form**, if its leaves are their own. -/
theorem IsSettled.normal_eq_self (hleaf : ∀ t : Tree, P t → leaf t = t) {t : Tree} (h : t.IsSettled keepsNil)
    (hover : t.Over P K) : t.normal leaf keepsNil = t := by
  induction t with
  | table es ih =>
    have hself : ∀ e ∈ es, (e.1, e.2.normal leaf keepsNil) = e := fun e he =>
      Prod.ext rfl (ih e he (h.of_table e he) (hover.of_table.2 e he))
    rw [h.normal_table, List.map_congr_left hself, List.map_id']
  | _ => exact hleaf _ (hover.of_leaf rfl)

/-- **A settled tree is carried on by its normal form**, if its leaves are by theirs. -/
theorem IsSettled.carried_normal (hleaf : ∀ t : Tree, P t → t.isTable = false → t.Carried (leaf t)) {t : Tree}
    (h : t.IsSettled keepsNil) (hover : t.Over P K) : t.Carried (t.normal leaf keepsNil) := by
  induction t with
  | table es ih =>
    rw [h.normal_table]
    refine .of_perm h.distinct.of_table.1 (.refl _) (Entries.matches_map fun e he => ?_)
    exact ih e he (h.of_table e he) (hover.of_table.2 e he)
  | _ => exact hleaf _ (hover.of_leaf rfl) rfl

end

/-! ## What is made of them -/

section

variable {α : Type} {P : Tree → Prop} {K : Key → Prop} (d : Dialect α)

theorem Over.ofTree_ne (hleaf : ∀ t e, P t → d.ofLeaf t ≠ .error e) (hkey : ∀ k, K k → k.name? ≠ none) {t : Tree}
    (h : t.Over P K) (e : Error) : d.ofTree t ≠ .error e := by
  induction t with
  | table es ih =>
    obtain ⟨hkeys, hes⟩ := h.of_table
    rw [Dialect.ofTree_table]
    intro he
    rcases Dialect.encodeForm_eq_error d he with he | he
    · obtain ⟨t, ht, he⟩ := Dialect.encodeItems_error he
      obtain ⟨k, hk⟩ := Entries.mem_of_mem_sequence ht
      exact ih _ hk (hes _ hk) he
    · obtain ⟨x, hx, ⟨hnone, -⟩ | ⟨-, he⟩⟩ := Dialect.encodeEntries_error d he
      · exact hkey x.1 (hkeys _ (Entries.mem_keys_of_mem hx)) hnone
      · exact ih x hx (hes x hx) he
  | _ => exact hleaf _ e (h.of_leaf rfl)

/-- **A tree has a document if all its leaves have and its keys have names.** -/
theorem Over.exists_ofTree_ok (hleaf : ∀ t e, P t → d.ofLeaf t ≠ .error e) (hkey : ∀ k, K k → k.name? ≠ none)
    {t : Tree} (h : t.Over P K) : ∃ doc, d.ofTree t = .ok doc := by
  cases hdoc : d.ofTree t with
  | ok doc => exact ⟨doc, rfl⟩
  | error e => exact absurd hdoc (h.ofTree_ne d hleaf hkey e)

theorem Over.exists_membersOfTree_ok (hleaf : ∀ t e, P t → d.ofLeaf t ≠ .error e) (hkey : ∀ k, K k → k.name? ≠ none)
    {t : Tree} (h : t.Over P K) : ∃ ms, d.membersOfTree t = .ok ms := by
  cases t with
  | table es =>
    cases hms : d.membersOfTree (.table es) with
    | ok ms => exact ⟨ms, rfl⟩
    | error e =>
      obtain ⟨x, hx, ⟨hnone, -⟩ | ⟨-, he⟩⟩ := Dialect.encodeEntries_error d hms
      · exact absurd hnone (hkey x.1 (h.of_table.1 _ (Entries.mem_keys_of_mem hx)))
      · exact absurd he ((h.of_table.2 x hx).ofTree_ne d hleaf hkey e)
  | _ => exact ⟨[], rfl⟩

/-- **Every name in a document of a tree is that of a key.** -/
theorem Over.forall_names {N : String → Prop} (hname : ∀ k s, K k → k.name? = some s → N s) {t : Tree} (h : t.Over P K) :
    ∀ {doc : Document α}, d.ofTree t = .ok doc → ∀ name ∈ doc.names, N name := by
  induction t with
  | table es ih =>
    intro doc hdoc
    obtain ⟨hkeys, hes⟩ := h.of_table
    rw [Dialect.ofTree_table] at hdoc
    rcases Dialect.encodeForm_eq_ok d hdoc with ⟨ds, -, hds, rfl⟩ | ⟨ms, -, hms, rfl⟩
    · refine Document.forall_itemNames (Dialect.forall_encodeItems (fun t ht doc hdoc => ?_) hds)
      obtain ⟨k, hk⟩ := Entries.mem_of_mem_sequence ht
      exact ih _ hk (hes _ hk) hdoc
    · have hnil : ∀ m ∈ ([] : Entries String (Document α)), N m.1 ∧ ∀ name ∈ m.2.names, N name := List.forall_mem_nil _
      refine Document.forall_memberNames (Dialect.forall_mem_encodeEntries (fun e he name doc hs hdoc => ?_) hnil hms)
      exact ⟨hname e.1 name (hkeys _ (Entries.mem_keys_of_mem he)) hs, ih e he (hes e he) hdoc⟩
  | _ =>
    intro doc hdoc
    obtain ⟨a, rfl⟩ := Dialect.exists_scalar_of_ofTree d rfl hdoc
    exact nofun

end

end Tree

/-! ## Documents -/

namespace Document

variable {α : Type}

/-- **A document over some scalars, names and lists.** -/
inductive Over (scalar : α → Prop) (name : String → Prop) (list : List (Document α) → Prop) : Document α → Prop where
  | scalar {a : α} (h : scalar a) : Over scalar name list (.scalar a)
  | list {items : List (Document α)} (hlist : list items) (h : ∀ d ∈ items, Over scalar name list d) :
    Over scalar name list (.list items)
  | dict {members : List (String × Document α)} (hnames : ∀ m ∈ members, name m.1)
    (h : ∀ m ∈ members, Over scalar name list m.2) : Over scalar name list (.dict members)

variable {p : α → Prop} {name : String → Prop} {q : List (Document α) → Prop} {value : α → Value}

theorem Over.and {p' : α → Prop} {name' : String → Prop} {q' : List (Document α) → Prop} {d : Document α}
    (h : d.Over p name q) : d.Over p' name' q' →
      d.Over (fun a => p a ∧ p' a) (fun s => name s ∧ name' s) fun items => q items ∧ q' items := by
  induction h with
  | scalar h => intro h'; cases h' with | scalar h' => exact .scalar ⟨h, h'⟩
  | list hlist _ ih =>
    intro h'
    cases h' with
    | list hlist' h' => exact .list ⟨hlist, hlist'⟩ fun d hd => ih d hd (h' d hd)
  | dict hnames _ ih =>
    intro h'
    cases h' with
    | dict hnames' h' => exact .dict (fun m hm => ⟨hnames m hm, hnames' m hm⟩) fun m hm => ih m hm (h' m hm)

mutual

/-- **Every document is over all there is.** -/
theorem over_true : ∀ d : Document α, d.Over (fun _ => True) (fun _ => True) fun _ => True
  | .scalar _ => .scalar trivial
  | .list items => .list trivial (over_true_items items)
  | .dict members => .dict (fun _ _ => trivial) (over_true_members members)

theorem over_true_items : ∀ ds : List (Document α), ∀ d ∈ ds, d.Over (fun _ => True) (fun _ => True) fun _ => True
  | [] => List.forall_mem_nil _
  | d :: ds => List.forall_mem_cons.2 ⟨over_true d, over_true_items ds⟩

theorem over_true_members : ∀ ms : List (String × Document α),
    ∀ m ∈ ms, m.2.Over (fun _ => True) (fun _ => True) fun _ => True
  | [] => List.forall_mem_nil _
  | (_, d) :: ms => List.forall_mem_cons.2 ⟨over_true d, over_true_members ms⟩

end

theorem mem_treeItems {ds : List (Document α)} {t : Tree} (ht : t ∈ treeItems value ds) :
    ∃ d ∈ ds, d.tree value = t := by
  rw [treeItems_eq] at ht
  exact List.mem_map.1 ht

theorem mem_treeMembers {ms : List (String × Document α)} {e : Key × Tree} (he : e ∈ treeMembers value ms) :
    ∃ m ∈ ms, (.string m.1, m.2.tree value) = e := by
  rw [treeMembers_eq] at he
  exact List.mem_map.1 he

theorem string_of_mem_keys_treeMembers {ms : List (String × Document α)} {k : Key}
    (hk : k ∈ Entries.keys (Entries.ofList (treeMembers value ms))) : ∃ s, k = .string s := by
  rw [Entries.mem_keys_ofList, keys_treeMembers] at hk
  obtain ⟨s, -, rfl⟩ := List.mem_map.1 hk
  exact ⟨s, rfl⟩

/-- **The tree of a document is over the values of its scalars** and over its names, beside integers. -/
theorem Over.tree {P : Tree → Prop} {K : Key → Prop} (hscalar : ∀ a, p a → (Tree.ofLeaf (value a)).isTable = false ∧
    P (.ofLeaf (value a))) (hplace : ∀ n, K (.ofPlace n)) (hname : ∀ s, name s → K (.string s)) {d : Document α}
    (h : d.Over p name q) : (d.tree value).Over P K := by
  induction h with
  | scalar h => exact .leaf (hscalar _ h).1 (hscalar _ h).2
  | @list items _ _ ih =>
    have hitems : (Tree.sequence (treeItems value items)).Over P K := .sequence hplace fun t ht => by
      obtain ⟨d, hd, rfl⟩ := mem_treeItems ht
      exact ih d hd
    refine .table (fun k hk => ?_) fun e he => hitems.of_table.2 e (Entries.mem_of_mem_ofList he)
    exact hitems.of_table.1 k (Entries.mem_keys_ofList.1 hk)
  | dict hnames _ ih =>
    refine .table (fun k hk => ?_) fun e he => ?_
    · obtain ⟨e, he, rfl⟩ := List.mem_map.1 (Entries.mem_keys_ofList.1 hk)
      obtain ⟨m, hm, rfl⟩ := mem_treeMembers he
      exact hname _ (hnames m hm)
    · obtain ⟨m, hm, rfl⟩ := mem_treeMembers (Entries.mem_of_mem_ofList he)
      exact ih m hm

/-- **The tree of a document is settled**, if its lists are short enough and hold no null, and its dictionaries none that
is left out. -/
theorem Over.isSettled_tree {keepsNil : Bool} (hscalar : ∀ a, (Tree.ofLeaf (value a)).isTable = false)
    (hlist : ∀ items, q items → items.length < 2 ^ 63 ∧ ∀ d ∈ items, HasNil.isNil (d.tree value) = false)
    (hdict : ∀ a, p a → (HasNil.isNil (Tree.ofLeaf (value a)) && !keepsNil) = false) {d : Document α}
    (h : d.Over p name q) : (d.tree value).IsSettled keepsNil := by
  have hkept : ∀ {d : Document α}, d.Over p name q → (HasNil.isNil (d.tree value) && !keepsNil) = false := fun h => by
    cases h with
    | scalar h => exact hdict _ h
    | list => rfl
    | dict => rfl
  induction h with
  | scalar => exact .leaf (hscalar _)
  | @list items hitems h ih =>
    obtain ⟨hlen, hnil⟩ := hlist items hitems
    have hlen' : (treeItems value items).length < 2 ^ 63 := by rwa [treeItems_eq, List.length_map]
    rw [Document.tree, Entries.ofList_eq_self (Entries.nodup_numbered hlen')]
    refine .list hlen' (fun t ht => ?_) fun t ht => ?_
    · obtain ⟨d, hd, rfl⟩ := mem_treeItems ht
      exact hnil d hd
    · obtain ⟨d, hd, rfl⟩ := mem_treeItems ht
      exact ih d hd
  | dict hnames h ih =>
    refine .dict Entries.nodup_keys_ofList (fun _ => string_of_mem_keys_treeMembers) (fun e he => ?_) fun e he => ?_
    · obtain ⟨m, hm, rfl⟩ := mem_treeMembers (Entries.mem_of_mem_ofList he)
      exact hkept (h m hm)
    · obtain ⟨m, hm, rfl⟩ := mem_treeMembers (Entries.mem_of_mem_ofList he)
      exact ih m hm

/-- **The tree of a document is settled**, if it is solid. -/
theorem Over.isSettled_of_isSolid {keepsNil : Bool} (hscalar : ∀ a, (Tree.ofLeaf (value a)).isTable = false)
    {d : Document α} (h : d.Over p name q) : (d.tree value).IsSolid → (d.tree value).IsSettled keepsNil := by
  induction h with
  | scalar => exact fun _ => .leaf (hscalar _)
  | @list items _ _ ih =>
    intro hsolid
    have hlen : (treeItems value items).length < 2 ^ 63 := by
      by_contra hlong
      have hle := Entries.le_length_ofList_numbered (Nat.le_of_not_lt hlong) (by decide)
      exact Nat.not_lt.2 hle hsolid.of_table.1
    rw [Document.tree, Entries.ofList_eq_self (Entries.nodup_numbered hlen)] at hsolid ⊢
    have hitem : ∀ t ∈ treeItems value items, t.IsSolid := fun t ht => by
      obtain ⟨e, he, rfl⟩ := List.mem_map.1 (Entries.map_snd_numbered (treeItems value items) ▸ ht)
      exact hsolid.of_table.2 e he
    refine .list hlen (fun t ht => (hitem t ht).isNil_eq_false) fun t ht => ?_
    obtain ⟨d, hd, rfl⟩ := mem_treeItems ht
    exact ih d hd (hitem _ ht)
  | dict _ _ ih =>
    intro hsolid
    refine .dict Entries.nodup_keys_ofList (fun _ => string_of_mem_keys_treeMembers) (fun e he => ?_) fun e he => ?_
    · rw [(hsolid.of_table.2 e he).isNil_eq_false, Bool.false_and]
    · have hsolid := hsolid.of_table.2 e he
      obtain ⟨m, hm, rfl⟩ := mem_treeMembers (Entries.mem_of_mem_ofList he)
      exact ih m hm hsolid

end Document
end Interchange
