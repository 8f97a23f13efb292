import Interchange.Proofs.NormalForm
import Interchange.Proofs.Utf8
import Interchange.Toml.Codec
/-!
# Replay — what becomes of a document in TOML

A text layer replays a document if its text is read as the same members, except that those that stand under headers come
after the others.  The text is empty only where there are no members, and an empty text is no input.
-/
namespace Interchange

/-- **Documents that differ in the order of members alone**, their scalars being related. -/
inductive Document.Reordered {α : Type} (R : α → α → Prop) : Document α → Document α → Prop where
  | scalar {a b : α} (h : R a b) : Reordered R (.scalar a) (.scalar b)
  | list {ds es : List (Document α)} (h : List.Forall₂ (Reordered R) ds es) : Reordered R (.list ds) (.list es)
  | dict {ms ns os : List (String × Document α)} (hperm : ms.Perm ns) (hnames : ns.map Prod.fst = os.map Prod.fst)
    (h : List.Forall₂ (Reordered R) (ns.map Prod.snd) (os.map Prod.snd)) : Reordered R (.dict ms) (.dict os)

namespace Toml

/-- Equal scalars, and doubles that are both no number. -/
def Scalar.Agrees (a b : Scalar) : Prop := a = b ∨ ∃ x y, a = .float x ∧ b = .float y ∧ x.isNaN ∧ y.isNaN

/-- The deepest nesting of arrays and tables, the document itself among them. -/
def maxNesting : Nat := Read.maxLevels + 1

/-- **A layer that replays members**: their text is read as the same members in some order, if arrays and tables nest no
deeper than the reader goes, and it is empty only if there are none. -/
def TextLayer.Replays (layer : TextLayer) (pretty : Bool) (ms : Members) : Prop :=
  (Document.dict ms).Fits (fun _ => True) maxNesting → ∀ text, layer.emit pretty ms = .ok text →
    (text = [] ↔ ms = []) ∧ ∃ ms', layer.parse? text = some ms' ∧ (Document.dict ms).Reordered Scalar.Agrees (.dict ms')

/-- **A layer that reads back members**: they have a text, empty only if there are none, that is read as the same members
in some order. -/
def TextLayer.ReadsBack (layer : TextLayer) (pretty : Bool) (ms : Members) : Prop :=
  ∃ text, layer.emit pretty ms = .ok text ∧ (text = [] ↔ ms = []) ∧
    ∃ ms', layer.parse? text = some ms' ∧ (Document.dict ms).Reordered Scalar.Agrees (.dict ms')

theorem TextLayer.Replays.readsBack {layer : TextLayer} {pretty : Bool} {ms : Members} (hreplays : layer.Replays pretty ms)
    (hfits : (Document.dict ms).Fits (fun _ => True) maxNesting) (hemit : ∃ cs, layer.emit pretty ms = .ok cs) :
    layer.ReadsBack pretty ms := by
  obtain ⟨cs, hcs⟩ := hemit
  exact ⟨cs, hcs, hreplays hfits cs hcs⟩

theorem dialect_gives : dialect.Gives fun _ => True :=
  ⟨fun _ _ => trivial, fun _ => trivial, fun _ => trivial, fun _ => trivial⟩

/-- **No members are left exactly when every entry holds nil.** -/
theorem eq_nil_of_encodeMapping_ok {h : Heap} {options : Options} {root : TableId} {ms : Members}
    (hms : dialect.encodeMapping h options root = .ok ms) :
    ms = [] ↔ ¬ ∃ e ∈ (h.get root).entries, e.2.isNil = false := by
  rw [Dialect.encodeMapping, Dialect.encodeMappingWithin] at hms
  obtain ⟨g, -, hms⟩ := bind_eq_ok.1 hms
  rw [dialect.encodeEntries_eq_nil rfl hms]
  simp only [true_and, not_exists, not_and, Bool.not_eq_false]
  rfl

/-- A text that is read as members is loaded as them. -/
theorem readWith_of_parse {layer : TextLayer} {ms : Members} {cs : List Char} (hne : cs ≠ [])
    (hparse : layer.parse? cs = some ms) (h : Heap) :
    readWith layer h (Utf8.encode cs) = .ok ((Document.dict ms).load Scalar.value h) := by
  rw [readWith, Utf8.isEmpty_encode, if_neg (by rwa [List.isEmpty_iff]), Utf8.decode_encode]
  dsimp only
  rw [hparse]

/-- **What becomes of replayed members**: they are loaded in some order, unless there are none. -/
theorem TextLayer.Replays.readWith_eq {layer : TextLayer} {options : Options} {ms : Members}
    (hreplays : layer.Replays options.pretty ms) (hfits : (Document.dict ms).Fits (fun _ => True) maxNesting)
    {text : String} (htext : layer.text options ms = .ok text) :
    (ms = [] ∧ ∀ h, readWith layer h (Utf8.encode text.toList) = .error .emptyInput) ∨
      (ms ≠ [] ∧ ∃ ms', (Document.dict ms).Reordered Scalar.Agrees (.dict ms') ∧
        ∀ h, readWith layer h (Utf8.encode text.toList) = .ok ((Document.dict ms').load Scalar.value h)) := by
  unfold TextLayer.text at htext
  split at htext
  · rename_i cs hcs
    cases htext
    obtain ⟨hempty, ms', hparse, hreordered⟩ := hreplays hfits cs hcs
    rw [String.toList_ofList]
    by_cases hms : ms = []
    · rw [hempty.2 hms]
      exact .inl ⟨hms, fun h => rfl⟩
    · exact .inr ⟨hms, ms', hreordered, readWith_of_parse (fun hcs => hms (hempty.1 hcs)) hparse⟩
  · cases htext

end Toml
end Interchange
