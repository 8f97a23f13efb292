import Interchange.Codec
import Interchange.Proofs.Xml.Records
import Std.Data.String.ToInt
/-!
# Members — the names that entries are written under

Every key is named by itself.  Two strings, or two integers, have one name only if they are one key; but an integer and a
string may have one name, and so may doubles that agree in fourteen digits.  A dictionary has every name once all the
same: of entries with one name it has the last, in the place of the first.  So it has one member for each entry that is not
left out exactly when their names are distinct (`Format.emits_of_encode_ok`).
-/
namespace Interchange

/-! ## Names of keys -/

theorem Number.integerText_inj {i j : Int64} : integerText i = integerText j ↔ i = j := by
  rw [integerText, integerText, Int.toString_eq_repr, Int.toString_eq_repr, Int.repr_inj, Int64.toInt_inj]

namespace Entries

variable {β : Type}

/-- **The names that the keys of entries have**, in order. -/
def names (es : List (Key × β)) : List String := es.filterMap fun e => e.1.name?

theorem names_eq_keys {γ : Type} {R : Key × β → String × γ → Prop} (hR : ∀ e p, R e p → e.1.name? = some p.1)
    {es : List (Key × β)} {ps : List (String × γ)} (h : List.Forall₂ R es ps) : names es = keys ps := by
  induction h with
  | nil => rfl
  | cons hep _ ih =>
    rw [names, List.filterMap_cons, hR _ _ hep]
    exact congrArg _ ih

/-- Entries whose keys are strings only, or integers only. -/
def OneKind (es : List (Key × β)) : Prop :=
  (∀ k ∈ keys es, ∃ s, k = .string s) ∨ ∀ k ∈ keys es, ∃ i, k = .integer i

/-- **Distinct keys of one kind have distinct names.** -/
theorem OneKind.nodup_names {es : List (Key × β)} (hkind : OneKind es) (hnd : (keys es).Nodup) : (names es).Nodup := by
  have hinj : ∀ k ∈ keys es, ∀ k' ∈ keys es, k.name? = k'.name? → k = k' := by
    intro k hk k' hk' hname
    rcases hkind with hstrings | hintegers
    · obtain ⟨s, rfl⟩ := hstrings k hk
      obtain ⟨s', rfl⟩ := hstrings k' hk'
      exact congrArg Key.string (Option.some.inj hname)
    · obtain ⟨i, rfl⟩ := hintegers k hk
      obtain ⟨j, rfl⟩ := hintegers k' hk'
      exact congrArg Key.integer (Number.integerText_inj.1 (Option.some.inj hname))
  have hmap : names es = (keys es).filterMap Key.name? := by rw [names, keys, List.filterMap_map]; rfl
  rw [hmap, List.Nodup, List.pairwise_filterMap]
  refine hnd.imp_of_mem fun hk hk' hne s hs s' hs' heq => hne (hinj _ hk _ hk' ?_)
  rw [hs, hs', heq]

end Entries

/-! ## Dictionaries -/

namespace Dialect

section

variable {α β : Type}

/-- A member for an entry: under the name of the key, the document of the value. -/
def IsMember (value : β → Except Error (Document α)) (e : Key × β) (m : String × Document α) : Prop :=
  e.1.name? = some m.1 ∧ value e.2 = .ok m.2

end

variable {α β : Type} [HasNil β] (d : Dialect α)

/-- **The entries that a dictionary has members for**: all, or those that do not hold nil. -/
def emitted (es : List (Key × β)) : List (Key × β) := es.filter fun e => !(HasNil.isNil e.2 && !d.keepsNil)

/-- **How a dictionary stands for entries**: members are set for them one after another, so it has their names, each once,
and every one of them as a member if their names are distinct, as they are if the keys are of one kind. -/
structure Emits (value : β → Except Error (Document α)) (es : List (Key × β)) (ms : List (String × Document α)) : Prop where
  exists_ofList : ∃ ps, List.Forall₂ (IsMember value) (d.emitted es) ps ∧ ms = Entries.ofList ps
  nodup : (Entries.keys ms).Nodup
  mem_keys_iff : ∀ name, name ∈ Entries.keys ms ↔ name ∈ Entries.names (d.emitted es)
  length_eq_iff : ms.length = (d.emitted es).length ↔ (Entries.names (d.emitted es)).Nodup
  members : (Entries.names (d.emitted es)).Nodup → List.Forall₂ (IsMember value) (d.emitted es) ms
  nodup_names : Entries.OneKind (d.emitted es) → (Entries.names (d.emitted es)).Nodup

variable {d}

/-- **Entries are written as members set one after another**, one for each entry that is not left out. -/
theorem exists_members {value : β → Except Error (Document α)} : ∀ {es : List (Key × β)}
    {before ms : Entries String (Document α)}, d.encodeEntries value before es = .ok ms →
      ∃ ps, List.Forall₂ (IsMember value) (d.emitted es) ps ∧ ms = before.setAll ps
  | [], _, _, h => by
    cases h
    exact ⟨[], .nil, rfl⟩
  | (k, v) :: es, _, _, h => by
    rw [encodeEntries] at h
    rw [emitted, List.filter_cons]
    split at h
    · cases h
    · rename_i name hname
      split at h
      · rename_i hleft
        rw [hleft]
        exact exists_members h
      · rename_i hleft
        obtain ⟨doc, hdoc, h⟩ := bind_eq_ok.1 h
        obtain ⟨ps, hps, rfl⟩ := exists_members h
        rw [Bool.eq_false_iff.2 hleft]
        exact ⟨(name, doc) :: ps, .cons ⟨hname, hdoc⟩ hps, rfl⟩

theorem emits_of_encodeEntries {value : β → Except Error (Document α)} {es : List (Key × β)} (hkeys : (Entries.keys es).Nodup)
    {ms : Entries String (Document α)} (h : d.encodeEntries value [] es = .ok ms) : d.Emits value es ms := by
  obtain ⟨ps, hps, rfl⟩ := exists_members h
  have hnames := Entries.names_eq_keys (fun _ _ h => h.1) hps
  refine ⟨⟨ps, hps, rfl⟩, Entries.nodup_keys_ofList, fun name => ?_, ?_, fun hnd => ?_, fun hkind => ?_⟩
  · rw [hnames]
    exact Entries.mem_keys_ofList
  · rw [hnames, hps.length_eq]
    exact Entries.length_ofList_eq_iff
  · have hself : Entries.setAll [] ps = ps := Entries.ofList_eq_self (hnames ▸ hnd)
    rw [hself]
    exact hps
  · exact hkind.nodup_names (hkeys.sublist (List.filter_sublist.map Prod.fst))

end Dialect

namespace Format

/-- Two doubles that agree in fourteen digits, as the keys of a mapping and of attributes. -/
def near : Heap :=
  ⟨#[.ofPairs [(.float ⟨0x3FD3333333333333⟩, .string "a"), (.float ⟨0x3FD3333333333334⟩, .string "b")],
    .ofPairs [(.string "tag", .string "t"), (.string "attr", .table ⟨0⟩)]]⟩

/-- **Two entries with one name**: a dictionary has the last of them alone, and a start tag has both. -/
theorem not_names_distinct :
    ¬ (Entries.names (Json.dialect.emitted (near.get ⟨0⟩).entries)).Nodup ∧
      json.write near .default ⟨0⟩ = .ok "\x7b\"0.3\":\"b\"\x7d" ∧
      yaml.write near .default ⟨0⟩ = .ok "'0.3': b\n" ∧
      toml.write near .default ⟨0⟩ = .ok "\"0.3\" = \"b\"\n" ∧
      xml.write near .default ⟨1⟩ = .ok "<t 0.3=\"a\" 0.3=\"b\"/>\n" := by
  decide +kernel

/-- **A dictionary has the names of its entries, each once.**  Wherever a table is written as a dictionary, the root of
TOML among them, there are as many members as entries that are not left out exactly when the names of those are distinct,
and then every entry has its member, in order.  An element has its attributes name by name, if their names are distinct.
Keys of one kind, strings or integers, have distinct names. -/
theorem emits_of_encode_ok {α : Type} (d : Dialect α) (h : Heap) (id : TableId) (stuck : Error) (room : Nat) :
    (∀ guard ms, d.encodeTable stuck h (room + 1) guard id = .ok (.dict ms) → ∃ guard', guard.enter id = .ok guard' ∧
      d.Emits (d.encodeValue (d.encodeTable stuck h room guard')) (h.get id).entries ms) ∧
    (∀ options ms, d.encodeMappingWithin stuck h room options id = .ok ms →
      ∃ guard, (Guard.new options.maxDepth).enter id = .ok guard ∧
        d.Emits (d.encodeValue (d.encodeTable stuck h room guard)) (h.get id).entries ms) ∧
    ∀ guard e, Xml.Element.ofRecordWithin stuck h (room + 1) guard id = .ok e →
      ∃ entries, Xml.Element.attributeEntries h (h.get id) = .ok entries ∧
        (Entries.OneKind entries → (Entries.names entries).Nodup) ∧
        ((Entries.names entries).Nodup → Entries.keys e.attributes = Entries.names entries ∧
          List.Forall₂ (fun e a => e.1.name? = some a.1 ∧ e.2.coerceString? = some a.2) entries e.attributes) := by
  refine ⟨fun guard ms hok => ?_, fun options ms hok => ?_, fun guard e hok => ?_⟩
  · rw [Dialect.encodeTable] at hok
    obtain ⟨guard', henter, hok⟩ := bind_eq_ok.1 hok
    refine ⟨guard', henter, ?_⟩
    rcases Dialect.encodeForm_eq_ok d hok with ⟨ds, -, -, hdoc⟩ | ⟨ms', -, hms, hdoc⟩
    · cases hdoc
    · cases hdoc
      exact Dialect.emits_of_encodeEntries (h.get id).nodup hms
  · obtain ⟨guard, henter, hms⟩ := bind_eq_ok.1 hok
    exact ⟨guard, henter, Dialect.emits_of_encodeEntries (h.get id).nodup hms⟩
  · rw [Xml.Element.ofRecordWithin] at hok
    obtain ⟨guard', -, hok⟩ := bind_eq_ok.1 hok
    obtain ⟨tag, -, hok⟩ := bind_eq_ok.1 hok
    obtain ⟨entries, hentries, hok⟩ := bind_eq_ok.1 hok
    obtain ⟨text, -, hok⟩ := bind_eq_ok.1 hok
    obtain ⟨values, -, hok⟩ := bind_eq_ok.1 hok
    obtain ⟨attributes, hattributes, hok⟩ := bind_eq_ok.1 hok
    obtain ⟨children, -, hok⟩ := bind_eq_ok.1 hok
    cases hok
    have hmatches := Xml.Element.attributesOf_eq_ok hattributes
    refine ⟨entries, hentries, fun hkind => hkind.nodup_names ?_, fun _ => ⟨?_, hmatches⟩⟩
    · rcases Xml.Element.attributeEntries_eq_ok hentries with ⟨-, rfl⟩ | ⟨attr, -, rfl⟩
      · exact .nil
      · exact (h.get attr).nodup
    · exact (Entries.names_eq_keys (fun _ _ h => h.1) hmatches).symm

/-- A record with an entry under an integer and one that holds nil, its attributes under an integer and a string. -/
def labels : Heap :=
  ⟨#[.ofPairs [(.integer 2, .string "a"), (.string "gone", .nil), (.string "tag", .string "t"), (.string "attr", .table ⟨1⟩)],
    .ofPairs [(.integer 1, .string "x"), (.string "k", .string "y")]]⟩

def labelled : Document Yaml.Scalar :=
  .dict [("2", .scalar (.string "a")), ("tag", .scalar (.string "t")),
    ("attr", .dict [("1", .scalar (.string "x")), ("k", .scalar (.string "y"))])]

def labelledToml : Toml.Members :=
  [("2", .scalar (.string "a")), ("tag", .scalar (.string "t")),
    ("attr", .dict [("1", .scalar (.string "x")), ("k", .scalar (.string "y"))])]

/-- Three members for the three entries that hold something, and two attributes. -/
theorem emits_of_encode_ok_labels :
    (∃ ms, Yaml.dialect.encode labels .default ⟨0⟩ = .ok (.dict ms) ∧
      ms.length = (Yaml.dialect.emitted (labels.get ⟨0⟩).entries).length) ∧
    (∃ ms, Toml.dialect.encodeMapping labels .default ⟨0⟩ = .ok ms ∧
      ms.length = (Toml.dialect.emitted (labels.get ⟨0⟩).entries).length) ∧
    ∃ e, Xml.Element.ofRecord labels .default ⟨0⟩ = .ok e ∧ Entries.keys e.attributes = ["1", "k"] := by
  have hyaml : Yaml.dialect.encodeTable .cyclicStructure labels 3 (.new none) ⟨0⟩ = .ok labelled := by decide +kernel
  have htoml : Toml.dialect.encodeMappingWithin .cyclicStructure labels 2 .default ⟨0⟩ = .ok labelledToml := by
    decide +kernel
  have hxml : Xml.Element.ofRecordWithin .cyclicStructure labels 3 (.new none) ⟨0⟩ =
      .ok (.mk "t" [("1", "x"), ("k", "y")] "" []) := rfl
  have hnames : (Entries.names (Yaml.dialect.emitted (labels.get ⟨0⟩).entries)).Nodup := by decide +kernel
  refine ⟨⟨_, hyaml, ?_⟩, ⟨_, htoml, ?_⟩, ⟨_, hxml, ?_⟩⟩
  · obtain ⟨_, -, hemits⟩ := (emits_of_encode_ok Yaml.dialect labels ⟨0⟩ .cyclicStructure 2).1 _ _ hyaml
    exact hemits.length_eq_iff.2 hnames
  · obtain ⟨_, -, hemits⟩ := (emits_of_encode_ok Toml.dialect labels ⟨0⟩ .cyclicStructure 2).2.1 _ _ htoml
    exact hemits.length_eq_iff.2 hnames
  · obtain ⟨entries, hentries, -, hnamed⟩ := (emits_of_encode_ok Yaml.dialect labels ⟨0⟩ .cyclicStructure 2).2.2 _ _ hxml
    have hattr : Xml.Element.attributeEntries labels (labels.get ⟨0⟩) = .ok (labels.get ⟨1⟩).entries := rfl
    cases hattr.symm.trans hentries
    have hattributes : Entries.names (labels.get ⟨1⟩).entries = ["1", "k"] := by decide +kernel
    rw [← hattributes]
    exact (hnamed (by rw [hattributes]; decide)).1

end Format
end Interchange
