import Interchange.Proofs.Toml.Settling
import Interchange.Proofs.Yaml.Settling
/-!
# Settling — tables that were read, written and read again

What was read as YAML need not come back the same: numbers become doubles, entries that hold nil go, and a list that holds
nil is a mapping from then on.  But that happens once; and where there is no nil it is the same data all along, in YAML as
in TOML (`Format.relay_settles`).
-/
namespace Interchange

namespace Heap

/-- **A table from which one that holds nil is reached.** -/
def HoldsNil (h : Heap) (root : TableId) : Prop := ∃ a k, h.Reaches root a ∧ (k, Value.nil) ∈ (h.get a).entries

/-- **A table from which only those of fewer than 2 ^ 63 entries are reached.**  A list of more has no places for them. -/
def IsPlaced (h : Heap) (root : TableId) : Prop := ∀ a, h.Reaches root a → (h.get a).size < 2 ^ 63

/-- **The tree of a table is over leaves that are not nil**, if none is reached from it. -/
theorem over_of_not_holdsNil {h : Heap} {root : TableId} (hnil : ¬ h.HoldsNil root) :
    ∀ {n : Nat} {a : TableId} {t : Tree}, h.Reaches root a → h.unfold n (.table a) = some t →
      t.Over (fun t => HasNil.isNil t = false) fun _ => True
  | 0, _, _, _, ht => nomatch ht
  | n + 1, a, t, ha, ht => by
    obtain ⟨ts, rfl, hts⟩ := unfold_table.1 ht
    refine .table (fun _ _ => trivial) fun e he => ?_
    obtain ⟨v, hv, hunfold⟩ := hts.exists_mem_right he
    cases v with
    | table b => exact over_of_not_holdsNil hnil (ha.tail ⟨e.1, hv⟩) hunfold
    | nil => exact absurd ⟨a, e.1, ha, hv⟩ hnil
    | _ =>
      rw [unfold] at hunfold
      injection hunfold with heq
      rw [← heq]
      exact .leaf rfl rfl

/-- **The tree of a placed table is solid**, if its leaves are not nil. -/
theorem IsPlaced.isSolid {h : Heap} {root : TableId} (hplaced : h.IsPlaced root) {P : Tree → Prop} {K : Key → Prop}
    (hP : ∀ t, P t → HasNil.isNil t = false) : ∀ {n : Nat} {a : TableId} {t : Tree}, h.Reaches root a →
      h.unfold n (.table a) = some t → t.Over P K → t.IsSolid
  | 0, _, _, _, ht, _ => nomatch ht
  | n + 1, a, t, ha, ht, hover => by
    obtain ⟨ts, rfl, hts⟩ := unfold_table.1 ht
    have hover := hover.of_table.2
    refine .table (hts.length_eq ▸ hplaced a ha) fun e he => ?_
    obtain ⟨v, hv, hunfold⟩ := hts.exists_mem_right he
    cases v with
    | table b => exact hplaced.isSolid hP (ha.tail ⟨e.1, hv⟩) hunfold (hover e he)
    | _ =>
      rw [unfold] at hunfold
      injection hunfold with heq
      have hleaf : e.2.isTable = false := by rw [← heq]; rfl
      exact .leaf hleaf (hP _ ((hover e he).of_leaf hleaf))

end Heap

namespace Format

/-- **YAML and TOML settle after one pass.**  A table that was read as YAML is written and read back, and what that gives
is the same after another pass; it is the same as the table if no nil is reached from it.  A table that was read as TOML
and is not empty is written, in either layout, and read back as the same.  Text layers are taken to read back the document
that they are given in each pass. -/
theorem relay_settles {layers : TextLayers} {h h' : Heap} {input : List UInt8} {root : TableId} (pretty : Bool) :
    (yaml.readWith layers h input = .ok (.table root, h') →
      ∃ doc, Yaml.dialect.encode h' ⟨pretty, none⟩ root = .ok doc ∧ (layers.yaml.ReadsBack doc →
        ∃ r₁, yaml.relay layers ⟨pretty, none⟩ h' root = .ok r₁ ∧
          (h'.IsPlaced root → ¬ h'.HoldsNil root → r₁.2.Same (.table r₁.1) (.table root)) ∧
          ∃ doc₁, Yaml.dialect.encode r₁.2 ⟨pretty, none⟩ r₁.1 = .ok doc₁ ∧ (layers.yaml.ReadsBack doc₁ →
            ∃ r₂, yaml.relay layers ⟨pretty, none⟩ r₁.2 r₁.1 = .ok r₂ ∧ r₂.2.Same (.table r₂.1) (.table r₁.1)))) ∧
    (toml.readWith layers h input = .ok (.table root, h') → (h'.get root).isEmpty = false →
      ∃ ms, Toml.dialect.encodeMapping h' ⟨pretty, none⟩ root = .ok ms ∧ (layers.toml.ReadsBack pretty ms →
        ∃ r₁, toml.relay layers ⟨pretty, none⟩ h' root = .ok r₁ ∧
          (h'.IsPlaced root → r₁.2.Same (.table r₁.1) (.table root)))) := by
  constructor
  · intro hread
    obtain ⟨d, hd, hload⟩ := Yaml.exists_load_of_readWith_ok hread
    have hover := hd.over_tree
    have ht : ∀ h'', h'.Extends h'' → h''.tree? (.table root) = some (d.tree Yaml.Scalar.value) := by
      have htree := (Document.tree?_load Yaml.isTable_value d h).2
      rwa [hload] at htree
    obtain ⟨doc, hdoc, hpass⟩ := Yaml.exists_pass hover layers (ht h' (.refl _)) pretty
    refine ⟨doc, hdoc, fun hback => ?_⟩
    obtain ⟨r₁, hrelay, hext, htree⟩ := hpass hback
    obtain ⟨doc₁, hdoc₁, hpass₁⟩ := Yaml.exists_pass (Yaml.over_yaml hover) layers (htree _ (.refl _)) pretty
    refine ⟨r₁, hrelay, fun hplaced hnil => ?_, doc₁, hdoc₁, fun hback₁ => ?_⟩
    · have ht' := ht h' (.refl _)
      have hsolid := hplaced.isSolid (fun _ h => h) .refl ht' (Heap.over_of_not_holdsNil hnil .refl ht')
      have hcarried := Yaml.carried_yaml hover (hd.isSettled_of_isSolid (fun a => by cases a <;> rfl) hsolid)
      exact ⟨_, _, htree _ (.refl _), ht _ hext, hcarried.same.symm⟩
    · obtain ⟨r₂, hrelay₂, hext₂, htree₂⟩ := hpass₁ hback₁
      refine ⟨r₂, hrelay₂, _, _, htree₂ _ (.refl _), htree _ hext₂, ?_⟩
      rw [Yaml.yaml_yaml hover]
      exact .refl (Heap.distinct_of_unfold (htree _ (.refl _)))
  · intro hread hne
    obtain ⟨ms₀, hload⟩ := Toml.exists_load_of_readWith_ok hread
    have ht : ∀ h'', h'.Extends h'' → h''.tree? (.table root) = some ((Document.dict ms₀).tree Toml.Scalar.value) := by
      have htree := (Document.tree?_load Toml.isTable_value (.dict ms₀) h).2
      rwa [hload] at htree
    obtain ⟨ms, hms, hpass⟩ := Toml.exists_pass layers (ht h' (.refl _)) hne pretty
    refine ⟨ms, hms, fun hback => ?_⟩
    obtain ⟨r₁, u, hrelay, hext, hu, hsame⟩ := hpass hback
    refine ⟨r₁, hrelay, fun hplaced => ⟨_, _, hu, ht _ hext, (hsame ?_).symm⟩⟩
    exact hplaced.isSolid (fun _ ht => Toml.IsReadLeaf.isNil_eq_false ht) .refl (ht h' (.refl _)) (Toml.over_tree _)

/-- A list of an integer and a double that is no number, under a name. -/
def tally : Heap := ⟨#[.ofValues [.integer 1, .float .nan], .ofPairs [(.string "a", .table ⟨0⟩)]]⟩

def tallyYaml : Document Yaml.Scalar := .dict [("a", .list [.scalar (.float ⟨0x3FF0000000000000⟩), .scalar (.float .nan)])]

def tallyToml : Toml.Members := [("a", .list [.scalar (.float ⟨0x3FF0000000000000⟩), .scalar (.float .nan)])]

theorem standard_readsBack_tallyYaml : Yaml.TextLayer.standard.ReadsBack tallyYaml := by
  have hprint : Yaml.print tallyYaml = "a:\n- 1.0\n- .nan\n".toList := by decide +kernel
  have hallowed : "a:\n- 1.0\n- .nan\n".toList.all Yaml.isAllowed = true := by decide +kernel
  have htokens : Yaml.Token.ofText "a:\n- 1.0\n- .nan\n".toList =
      [.blockMapping, .key, .scalar ['a'] true, .value, .hyphen, .scalar ['1', '.', '0'] true, .hyphen,
        .scalar ['.', 'n', 'a', 'n'] true, .blockEnd, .textEnd] := by decide +kernel
  have hone : Yaml.Atom.ofPlain ['1', '.', '0'] = .float ⟨0x3FF0000000000000⟩ := by decide +kernel
  have hnan : Yaml.Atom.ofPlain ['.', 'n', 'a', 'n'] = .float .nan := by decide +kernel
  refine ⟨_, rfl, by rw [hprint]; decide, ?_⟩
  rw [hprint]
  refine (Yaml.standard_parse_encode hallowed).trans ?_
  rw [htokens]
  change Yaml.Parsed.mk (.dict [(.text ['a'], .list [.scalar (.ofPlain ['1', '.', '0']),
    .scalar (.ofPlain ['.', 'n', 'a', 'n'])])]) true = _
  rw [hone, hnan]
  rfl

theorem standard_readsBack_tallyToml : Toml.TextLayer.standard.ReadsBack false tallyToml := by
  have hprint : Toml.print false tallyToml = "a = [1.0, nan]\n".toList := by decide +kernel
  have hparse : Toml.parse? "a = [1.0, nan]\n".toList = some tallyToml := by decide +kernel
  have hself : ∀ a : Toml.Scalar, Document.Reordered Toml.Scalar.Agrees (.scalar a) (.scalar a) := fun a => .scalar (.inl rfl)
  refine ⟨_, rfl, ?_, tallyToml, ?_, .dict (.refl _) rfl (.cons (.list (.cons (hself _) (.cons (hself _) .nil))) .nil)⟩
  · rw [hprint]
    exact iff_of_false (by decide) nofun
  · rw [hprint]
    exact hparse

theorem yaml_readWith_tally :
    yaml.readWith .standard .empty (Utf8.encode "a:\n- 1\n- .nan\n".toList) = .ok (.table ⟨1⟩, tally) := by
  have hallowed : "a:\n- 1\n- .nan\n".toList.all Yaml.isAllowed = true := by decide +kernel
  have htokens : Yaml.Token.ofText "a:\n- 1\n- .nan\n".toList =
      [.blockMapping, .key, .scalar ['a'] true, .value, .hyphen, .scalar ['1'] true, .hyphen,
        .scalar ['.', 'n', 'a', 'n'] true, .blockEnd, .textEnd] := by decide +kernel
  have hone : Yaml.Atom.ofPlain ['1'] = .integer 1 := by decide +kernel
  have hnan : Yaml.Atom.ofPlain ['.', 'n', 'a', 'n'] = .float .nan := by decide +kernel
  have hparse : Yaml.TextLayer.standard.parse (Utf8.encode "a:\n- 1\n- .nan\n".toList) =
      ⟨.dict [(.text ['a'], .list [.scalar (.integer 1), .scalar (.float .nan)])], true⟩ := by
    refine (Yaml.standard_parse_encode hallowed).trans ?_
    rw [htokens]
    change Yaml.Parsed.mk (.dict [(.text ['a'], .list [.scalar (.ofPlain ['1']), .scalar (.ofPlain ['.', 'n', 'a', 'n'])])])
      true = _
    rw [hone, hnan]
  have hdoc : Yaml.Parsed.document ⟨.dict [(.text ['a'], .list [.scalar (.integer 1), .scalar (.float .nan)])], true⟩ =
      .ok (.dict [("a", .list [.scalar (.integer 1), .scalar (.float .nan)])]) := by decide +kernel
  have hstandard : TextLayers.standard.yaml = .standard := rfl
  rw [readWith, hstandard, Yaml.readWith, Utf8.isEmpty_encode, if_neg (by decide), hparse, hdoc]
  rfl

theorem toml_readWith_tally :
    toml.readWith .standard .empty (Utf8.encode "a = [1, nan]\n".toList) = .ok (.table ⟨1⟩, tally) := by
  have hparse : TextLayers.standard.toml.parse? "a = [1, nan]\n".toList =
      some [("a", .list [.scalar (.integer 1), .scalar (.float .nan)])] := by decide +kernel
  rw [readWith, Toml.readWith_of_parse (by decide) hparse]
  rfl

theorem yaml_relay_tally : yaml.relay .standard ⟨false, none⟩ tally ⟨1⟩ =
    .ok (⟨3⟩, (tallyYaml.load (Yaml.Scalar.value ∘ Yaml.Scalar.reread) tally).2) := by
  have hstandard : TextLayers.standard.yaml = .standard := rfl
  obtain ⟨cs, hemit, hne, hparse⟩ := standard_readsBack_tallyYaml
  have hencode : Yaml.dialect.encode tally ⟨false, none⟩ ⟨1⟩ = .ok tallyYaml := by decide +kernel
  have hwrite : yaml.writeWith .standard tally ⟨false, none⟩ ⟨1⟩ = .ok (String.ofList cs) := by
    rw [writeWith, Yaml.writeWith, hencode, ok_bind, hstandard, Yaml.TextLayer.text, hemit]
  refine relay_eq_ok hwrite ?_
  rw [String.toList_ofList, readWith, hstandard, Yaml.readWith_of_parse hne hparse, if_neg (by decide)]
  rfl

theorem forall_get_tally {P : Table → Prop} (hlist : P (.ofValues [.integer 1, .float .nan]))
    (hroot : P (.ofPairs [(.string "a", .table ⟨0⟩)])) (hempty : P .empty) : ∀ a, P (tally.get a)
  | ⟨0⟩ => hlist
  | ⟨1⟩ => hroot
  | ⟨_ + 2⟩ => hempty

theorem isPlaced_tally : tally.IsPlaced ⟨1⟩ := fun a _ =>
  forall_get_tally (P := fun t => t.size < 2 ^ 63) (by decide) (by decide) (by decide) a

theorem not_holdsNil_tally : ¬ tally.HoldsNil ⟨1⟩ := fun ⟨a, k, _, hm⟩ => by
  have hnone : ∀ e ∈ (tally.get a).entries, e.2 ≠ .nil :=
    forall_get_tally (P := fun t => ∀ e ∈ t.entries, e.2 ≠ .nil) (by decide) (by decide) (by decide) a
  exact hnone _ hm rfl

/-- The integer is a double from the first pass on, and the other double stands for itself. -/
theorem relay_settles_tally :
    (∃ r₁ r₂, yaml.relay .standard ⟨false, none⟩ tally ⟨1⟩ = .ok r₁ ∧ r₁.2.Same (.table r₁.1) (.table ⟨1⟩) ∧
      yaml.relay .standard ⟨false, none⟩ r₁.2 r₁.1 = .ok r₂ ∧ r₂.2.Same (.table r₂.1) (.table r₁.1)) ∧
    ∃ r₁, toml.relay .standard ⟨false, none⟩ tally ⟨1⟩ = .ok r₁ ∧ r₁.2.Same (.table r₁.1) (.table ⟨1⟩) := by
  constructor
  · obtain ⟨doc, hdoc, hpass⟩ := (relay_settles false).1 yaml_readWith_tally
    have htally : Yaml.dialect.encode tally ⟨false, none⟩ ⟨1⟩ = .ok tallyYaml := by decide +kernel
    cases htally.symm.trans hdoc
    obtain ⟨r₁, hrelay, hsame, doc₁, hdoc₁, hpass₁⟩ := hpass standard_readsBack_tallyYaml
    cases yaml_relay_tally.symm.trans hrelay
    have htally₁ : Yaml.dialect.encode (tallyYaml.load (Yaml.Scalar.value ∘ Yaml.Scalar.reread) tally).2 ⟨false, none⟩ ⟨3⟩ =
        .ok tallyYaml := by decide +kernel
    cases htally₁.symm.trans hdoc₁
    obtain ⟨r₂, hrelay₂, hsame₂⟩ := hpass₁ standard_readsBack_tallyYaml
    exact ⟨_, r₂, hrelay, hsame isPlaced_tally not_holdsNil_tally, hrelay₂, hsame₂⟩
  · obtain ⟨ms, hms, hpass⟩ := (relay_settles false).2 toml_readWith_tally (by decide)
    have htally : Toml.dialect.encodeMapping tally ⟨false, none⟩ ⟨1⟩ = .ok tallyToml := by decide +kernel
    cases htally.symm.trans hms
    obtain ⟨r₁, hrelay, hsame⟩ := hpass standard_readsBack_tallyToml
    exact ⟨r₁, hrelay, hsame isPlaced_tally⟩

end Format
end Interchange
