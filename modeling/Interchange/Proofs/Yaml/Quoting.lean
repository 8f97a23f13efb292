import Interchange.Proofs.Yaml.Spelling
import Interchange.Yaml.Codec
/-!
# Quoting — documents with quotes around their scalars

Quotes change nothing about a tree but whether its scalars are plain: names get the same numbers, aliases stand for the same
nodes, and keys are the same texts.  So a document stays the same when any of its scalars are quoted, as long as none of
them depends on quotes (`Node.document_quoteWhere`).
-/
namespace Interchange

theorem Entries.get?_map_snd {κ α β : Type} [DecidableEq κ] (f : α → β) (k : κ) :
    ∀ es : Entries κ α, get? k (es.map fun e => (e.1, f e.2)) = (get? k es).map f
  | [] => rfl
  | (k', v) :: es => by
    rw [List.map_cons, get?, get?]
    split
    · rfl
    · exact get?_map_snd f k es

namespace Yaml
namespace Node

variable {ρ : Type} (p : List Char → Bool)

mutual

/-- **A tree with quotes around its plain scalars**, those whose text has a property. -/
def quoteWhere : Node ρ → Node ρ
  | .scalar anchor tag text isPlain => .scalar anchor tag text (isPlain && !p text)
  | .sequence anchor tag items => .sequence anchor tag (quoteItems items)
  | .mapping anchor tag members => .mapping anchor tag (quoteMembers members)
  | .alias name => .alias name
  | .broken => .broken

def quoteItems : List (Node ρ) → List (Node ρ)
  | [] => []
  | d :: ds => quoteWhere d :: quoteItems ds

def quoteMembers : List (Node ρ × Node ρ) → List (Node ρ × Node ρ)
  | [] => []
  | (k, v) :: ms => (quoteWhere k, quoteWhere v) :: quoteMembers ms

end

/-! ## Numbers for names -/

mutual

theorem withNumbers_quoteWhere : ∀ (n : Node String) (s : Naming),
    withNumbers (n.quoteWhere p) s = ((withNumbers n s).1.quoteWhere p, (withNumbers n s).2)
  | .scalar _ _ _ _, _ => rfl
  | .sequence anchor tag items, s => by
    rw [quoteWhere, withNumbers, withNumbers]
    dsimp only
    rw [itemsWithNumbers_quoteItems items]
    rfl
  | .mapping anchor tag members, s => by
    rw [quoteWhere, withNumbers, withNumbers]
    dsimp only
    rw [membersWithNumbers_quoteMembers members]
    rfl
  | .alias name, s => by
    rw [quoteWhere, withNumbers]
    split <;> rfl
  | .broken, _ => rfl

theorem itemsWithNumbers_quoteItems : ∀ (ds : List (Node String)) (s : Naming),
    itemsWithNumbers (quoteItems p ds) s = (quoteItems p (itemsWithNumbers ds s).1, (itemsWithNumbers ds s).2)
  | [], _ => rfl
  | d :: ds, s => by
    rw [quoteItems, itemsWithNumbers, itemsWithNumbers]
    split
    · rfl
    · dsimp only
      rw [withNumbers_quoteWhere d, itemsWithNumbers_quoteItems ds]
      rfl

theorem membersWithNumbers_quoteMembers : ∀ (ms : List (Node String × Node String)) (s : Naming),
    membersWithNumbers (quoteMembers p ms) s = (quoteMembers p (membersWithNumbers ms s).1, (membersWithNumbers ms s).2)
  | [], _ => rfl
  | (k, v) :: ms, s => by
    rw [quoteMembers, membersWithNumbers, membersWithNumbers]
    split
    · rfl
    · dsimp only
      rw [withNumbers_quoteWhere k]
      dsimp only
      split
      · rfl
      · rw [withNumbers_quoteWhere v, membersWithNumbers_quoteMembers ms]
        rfl

end

mutual

theorem numbered_quoteWhere : ∀ n : Node Nat, numbered (n.quoteWhere p) = (numbered n).map fun e => (e.1, e.2.quoteWhere p)
  | .scalar n _ _ _ => by cases n <;> rfl
  | .sequence n _ items => by
    rw [quoteWhere, numbered, numbered, numberedItems_quoteItems items, List.map_append]
    cases n <;> rfl
  | .mapping n _ members => by
    rw [quoteWhere, numbered, numbered, numberedMembers_quoteMembers members, List.map_append]
    cases n <;> rfl
  | .alias _ => rfl
  | .broken => rfl

theorem numberedItems_quoteItems : ∀ ds : List (Node Nat),
    numberedItems (quoteItems p ds) = (numberedItems ds).map fun e => (e.1, e.2.quoteWhere p)
  | [] => rfl
  | d :: ds => by
    rw [quoteItems, numberedItems, numberedItems, numbered_quoteWhere d, numberedItems_quoteItems ds, List.map_append]

theorem numberedMembers_quoteMembers : ∀ ms : List (Node Nat × Node Nat),
    numberedMembers (quoteMembers p ms) = (numberedMembers ms).map fun e => (e.1, e.2.quoteWhere p)
  | [] => rfl
  | (k, v) :: ms => by
    rw [quoteMembers, numberedMembers, numberedMembers, numbered_quoteWhere k, numbered_quoteWhere v,
      numberedMembers_quoteMembers ms, List.map_append, List.map_append]

end

/-! ## Expansion -/

namespace Expansion

/-- An expansion with quotes in the nodes that have names. -/
def quoteWhere (e : Expansion) : Expansion := ⟨e.nodes.map fun n => (n.1, n.2.quoteWhere p), e.maxAliases⟩

variable {p} {e : Expansion}

theorem follow?_quoteWhere (followed : Nat) : ∀ d : Node Nat,
    (e.quoteWhere p).follow? followed (d.quoteWhere p) = (e.follow? followed d).map fun f => (f.1.quoteWhere p, f.2)
  | .alias n => by
    have hmax : (e.quoteWhere p).maxAliases = e.maxAliases := rfl
    rw [Node.quoteWhere, follow?, follow?, hmax]
    split
    · rfl
    · rw [quoteWhere, ← List.map_reverse, Entries.get?_map_snd]
      cases Entries.get? n e.nodes.reverse <;> rfl
  | .scalar _ _ _ _ | .sequence _ _ _ | .mapping _ _ _ | .broken => rfl

/-- **A key is the same label with quotes**: it is the text that counts. -/
theorem label_quoteWhere (followed : Nat) (k : Node Nat) :
    (e.quoteWhere p).label followed (k.quoteWhere p) = e.label followed k := by
  unfold label
  rw [follow?_quoteWhere]
  cases e.follow? followed k with
  | none => cases k <;> rfl
  | some f =>
    obtain ⟨d, followed'⟩ := f
    cases k <;> cases d <;> rfl

/-- Outlines with the same document, after as many aliases. -/
def SameDocument (o o' : Outline × Nat) : Prop := o.1.document = o'.1.document ∧ o.2 = o'.2

/-- With a tag of YAML's own the text counts and not its quotes. -/
theorem scalar_taggedAtom? (hp : ∀ cs, p cs = true → dependsOnQuotes cs = false) (tag : Option String) (text : List Char)
    (isPlain : Bool) :
    (taggedAtom? tag text (isPlain && !p text)).map Atom.scalar = (taggedAtom? tag text isPlain).map Atom.scalar := by
  cases isPlain with
  | false => rfl
  | true =>
    cases hpt : p text with
    | false => rfl
    | true =>
      have hscalar := (Atom.scalar_ofPlain_eq_ofText_iff text).2 (hp text hpt)
      unfold taggedAtom?
      cases tag with
      | none => exact congrArg some hscalar.symm
      | some tag =>
        simp only [Bool.not_true, Bool.and_false, Bool.false_eq_true, if_false, if_true]
        split_ifs <;> first | rfl | exact congrArg some hscalar.symm

theorem sameDocument_scalar (followed : Nat) : ∀ {a a' : Option Atom}, a.map Atom.scalar = a'.map Atom.scalar →
    SameDocument (match a with | some a => (.scalar a, followed) | none => (.broken, followed))
      (match a' with | some a => (.scalar a, followed) | none => (.broken, followed))
  | none, none, _ => ⟨rfl, rfl⟩
  | some _, some _, h => ⟨congrArg (fun a => Except.ok (Document.scalar a)) (Option.some.inj h), rfl⟩

section

variable {node node' : Nat → Node Nat → Outline × Nat}
  (hnode : ∀ followed d, SameDocument (node' followed (d.quoteWhere p)) (node followed d))

include hnode

theorem items_quoteItems : ∀ (ds : List (Node Nat)) (followed : Nat),
    Outline.itemDocuments (items node' followed (quoteItems p ds)).1 = Outline.itemDocuments (items node followed ds).1 ∧
      (items node' followed (quoteItems p ds)).2 = (items node followed ds).2
  | [], _ => ⟨rfl, rfl⟩
  | d :: ds, followed => by
    obtain ⟨hdoc, hfollowed⟩ := hnode followed d
    obtain ⟨hdocs, hend⟩ := items_quoteItems ds (node followed d).2
    rw [quoteItems, items, items]
    dsimp only
    rw [Outline.itemDocuments, Outline.itemDocuments, hfollowed, hdoc, hdocs]
    exact ⟨rfl, hend⟩

theorem members_quoteMembers : ∀ (ms : List (Node Nat × Node Nat)) (followed : Nat),
    Outline.memberDocuments ((e.quoteWhere p).members node' followed (quoteMembers p ms)).1 =
        Outline.memberDocuments (e.members node followed ms).1 ∧
      ((e.quoteWhere p).members node' followed (quoteMembers p ms)).2 = (e.members node followed ms).2
  | [], _ => ⟨rfl, rfl⟩
  | (k, v) :: ms, followed => by
    obtain ⟨hdoc, hfollowed⟩ := hnode (e.label followed k).2 v
    obtain ⟨hdocs, hend⟩ := members_quoteMembers ms (node (e.label followed k).2 v).2
    rw [quoteMembers, members, members, label_quoteWhere]
    dsimp only
    rw [Outline.memberDocuments, Outline.memberDocuments, hfollowed, hdoc, hdocs]
    exact ⟨rfl, hend⟩

end

/-- **A node expands to the same document with quotes**, and follows as many aliases. -/
theorem outline_quoteWhere (hp : ∀ cs, p cs = true → dependsOnQuotes cs = false) (room : Nat) :
    ∀ (followed : Nat) (d : Node Nat),
    SameDocument ((e.quoteWhere p).outline room followed (d.quoteWhere p)) (e.outline room followed d) := by
  induction room with
  | zero =>
    intro followed d
    unfold outline
    rw [follow?_quoteWhere]
    cases e.follow? followed d with
    | none => exact ⟨rfl, rfl⟩
    | some f =>
      obtain ⟨d, followed⟩ := f
      cases d with
      | scalar anchor tag text isPlain =>
        exact sameDocument_scalar followed (scalar_taggedAtom? hp tag text isPlain)
      | _ => exact ⟨rfl, rfl⟩
  | succ room ih =>
    intro followed d
    unfold outline
    rw [follow?_quoteWhere]
    cases e.follow? followed d with
    | none => exact ⟨rfl, rfl⟩
    | some f =>
      obtain ⟨d, followed⟩ := f
      cases d with
      | scalar anchor tag text isPlain =>
        exact sameDocument_scalar followed (scalar_taggedAtom? hp tag text isPlain)
      | sequence anchor tag ds =>
        obtain ⟨hdocs, hend⟩ := items_quoteItems ih ds followed
        refine ⟨?_, hend⟩
        exact congrArg (Except.map Document.list) hdocs
      | mapping anchor tag ms =>
        obtain ⟨hdocs, hend⟩ := members_quoteMembers (e := e) ih ms followed
        refine ⟨?_, hend⟩
        exact congrArg (Except.map Document.dict) hdocs
      | _ => exact ⟨rfl, rfl⟩

end Expansion

/-! ## Whole trees -/

/-- **Quotes around scalars that do not depend on them leave the document of a tree as it is.** -/
theorem document_quoteWhere {p : List Char → Bool} (hp : ∀ cs, p cs = true → dependsOnQuotes cs = false)
    (root : Node String) :
    (Node.outline (root.quoteWhere p)).document = (Node.outline root).document := by
  rw [Node.outline, Node.outline, withNumbers_quoteWhere]
  generalize withNumbers root .start = named
  obtain ⟨root, s⟩ := named
  dsimp only
  rw [numbered_quoteWhere]
  exact (Expansion.outline_quoteWhere (e := ⟨numbered root, s.count * 100⟩) hp maxNesting 0 root).1

end Node

/-- **A text is read like one with quotes** around scalars that do not depend on them, if the trees of the two differ in
nothing else. -/
theorem readWith_quoteWhere {layer : TextLayer} {input input' : List UInt8} {root : Node String} {isWhole : Bool}
    {p : List Char → Bool} (hp : ∀ cs, p cs = true → dependsOnQuotes cs = false)
    (hinput : layer.parse input = (Stream.mk (some root) isWhole).parsed)
    (hinput' : layer.parse input' = (Stream.mk (some (root.quoteWhere p)) isWhole).parsed)
    (hne : input.isEmpty = false) (hne' : input'.isEmpty = false) (h : Heap) :
    readWith layer h input' = readWith layer h input := by
  have hdocument : (layer.parse input').document = (layer.parse input).document := by
    rw [hinput, hinput', Stream.parsed, Stream.parsed, Parsed.document, Parsed.document, Node.document_quoteWhere hp]
  rw [readWith, readWith, hne, hne', hdocument]

end Yaml
end Interchange
