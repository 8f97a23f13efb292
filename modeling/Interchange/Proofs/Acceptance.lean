import Interchange.Codec
import Interchange.Proofs.Json.RoundTrip
import Interchange.Proofs.Toml.Replay
import Interchange.Proofs.Xml.Building
import Interchange.Proofs.Yaml.RoundTrip
/-!
# Acceptance — what a format makes of its own text

What a writer produces is not always what the reader of the same format takes in.  JSON takes in all of it.  YAML refuses
a name that spells null, quoted or not; TOML writes a table of nothing but nil as the empty text, which is no input; and
XML writes names and characters as they are, without asking whether they are names and characters of XML.  Nothing else is
refused (`Format.takes_of_writeWith_ok`).
-/
namespace Interchange

/-! ## What is asked of a table -/

/-- The deepest nesting that the reader of a format goes to, if there is an end to it. -/
def Format.maxNesting? : Format → Option Nat
  | json => some Json.maxNesting
  | yaml => some Yaml.Node.maxNesting
  | toml => some Toml.maxNesting
  | xml => none

/-- **Text layers that replay the document of a table** in a format; JSON and XML need none. -/
def TextLayers.Replay (layers : TextLayers) (h : Heap) (options : Options) (root : TableId) : Format → Prop
  | .yaml => ∀ doc, Yaml.dialect.encode h options root = .ok doc → layers.yaml.Replays doc
  | .toml => ∀ ms, Toml.dialect.encodeMapping h options root = .ok ms → layers.toml.Replays options.pretty ms
  | .json | .xml => True

/-- **What the reader of a format asks of a table and the writer does not.**  The capacity of a reader is left out: one of XML
also refuses a document with more than `2 ^ 16` different bindings. -/
def Format.Admits (h : Heap) (options : Options) (root : TableId) : Format → Prop
  | json => True
  | yaml => ∀ doc, Yaml.dialect.encode h options root = .ok doc → ∀ name ∈ doc.names,
      Yaml.spellsNull name.toList = false
  | toml => ∃ e ∈ (h.get root).entries, e.2.isNil = false
  | xml => ∀ e, Xml.Element.ofRecord h options root = .ok e → e.IsMarkup

/-- Whether the names of an element are qualified names.  Other names are markup of their own once they are written. -/
def Format.IsNamed (h : Heap) (options : Options) (root : TableId) : Format → Prop
  | xml => ∀ e, Xml.Element.ofRecord h options root = .ok e → e.isNamed = true
  | json | yaml | toml => True

/-- The error for a table that is not admitted. -/
def Format.refusal? : Format → Option Error
  | json => none
  | yaml => some .nonScalarKey
  | toml => some .emptyInput
  | xml => some (.badSyntax .xml .grammar)

/-- **A text that is read as a table**, into any heap. -/
def Format.Takes (layers : TextLayers) (format : Format) (text : String) : Prop :=
  ∀ h, ∃ id h', format.readWith layers h (Utf8.encode text.toList) = .ok (.table id, h')

/-- A name that spells null, and a tag that is no name of XML. -/
def nameless : Heap := ⟨#[.ofPairs [(.string "null", .bool true), (.string "tag", .string "a b")]]⟩

/-- **Three texts that are refused**: of an empty table in TOML, of a name that spells null in YAML, and of a tag that is
no name in XML. -/
theorem Format.not_takes_own_text :
    (toml.write ⟨#[.empty]⟩ .default ⟨0⟩ = .ok "" ∧ ∀ h, toml.read h (Utf8.encode "".toList) = .error .emptyInput) ∧
    (yaml.write nameless .default ⟨0⟩ = .ok "'null': true\ntag: a b\n" ∧
      ∀ h, yaml.read h (Utf8.encode "'null': true\ntag: a b\n".toList) = .error .nonScalarKey) ∧
    (xml.write nameless .default ⟨0⟩ = .ok "<a b/>\n" ∧
      ∀ h, xml.read h (Utf8.encode "<a b/>\n".toList) = .error (.badSyntax .xml .grammar)) := by
  refine ⟨⟨by decide +kernel, fun _ => rfl⟩, ⟨by decide +kernel, fun h => ?_⟩, ⟨by decide +kernel, fun h => ?_⟩⟩
  · have hne : "'null': true\ntag: a b\n".toList.isEmpty = false := by decide +kernel
    have hallowed : "'null': true\ntag: a b\n".toList.all Yaml.isAllowed = true := by decide +kernel
    have htokens : Yaml.Token.ofText "'null': true\ntag: a b\n".toList =
        [.blockMapping, .key, .scalar ['n', 'u', 'l', 'l'] false, .value, .scalar ['t', 'r', 'u', 'e'] true, .key,
          .scalar ['t', 'a', 'g'] true, .value, .scalar ['a', ' ', 'b'] true, .blockEnd, .textEnd] := by
      decide +kernel
    have hdocument : (Yaml.TextLayer.standard.parse (Utf8.encode "'null': true\ntag: a b\n".toList)).document =
        .error .badKey := by
      rw [Yaml.standard_parse_encode hallowed, htokens]
      rfl
    rw [read, readWith, TextLayers.standard, Yaml.readWith, Utf8.isEmpty_encode, hne, hdocument]
    rfl
  · have hne : "<a b/>\n".toList.isEmpty = false := by decide +kernel
    have hnode : (Xml.Markup.ofText? "<a b/>\n".toList).bind Xml.Node.ofMarkup? = none :=
      Option.isNone_iff_eq_none.1 (by decide +kernel)
    rw [read, readWith, Xml.read, Utf8.isEmpty_encode, hne, Utf8.decode_encode]
    dsimp only
    rw [hnode]
    rfl

/-! ## The formats one by one -/

section

variable {h : Heap} {options : Options} {root : TableId} {text : String}

theorem Json.exists_read_of_write_ok (hok : write h options root = .ok text)
    (hnest : ∀ t, h.tree? (.table root) = some t → t.height ≤ maxNesting) (h₀ : Heap) :
    ∃ id h', read h₀ (Utf8.encode text.toList) = .ok (.table id, h') := by
  obtain ⟨doc, hdoc, htext⟩ := bind_eq_ok.1 hok
  obtain ⟨t, ht, hof⟩ := Dialect.exists_tree_of_encode_ok _ hdoc
  obtain ⟨id, h', hload, -⟩ := dialect.exists_load isTable_value tree_ofLeaf ht hof h₀
  exact ⟨id, h', (read_text (dialect_gives.fits t (hnest t ht) hof) htext h₀).trans (congrArg Except.ok hload)⟩

theorem Yaml.read_of_writeWith_ok {layer : TextLayer} {doc : Document Scalar}
    (hdoc : dialect.encode h options root = .ok doc) (hreplays : layer.Replays doc)
    (hok : writeWith layer h options root = .ok text)
    (hnest : ∀ t, h.tree? (.table root) = some t → t.height ≤ Node.maxNesting) (h₀ : Heap) :
    (anyNull doc.names = false ∧ ∃ id h', readWith layer h₀ (Utf8.encode text.toList) = .ok (.table id, h')) ∨
      (anyNull doc.names = true ∧ readWith layer h₀ (Utf8.encode text.toList) = .error .nonScalarKey) := by
  obtain ⟨t, ht, hof⟩ := Dialect.exists_tree_of_encode_ok _ hdoc
  obtain ⟨id, h', hload, -⟩ := dialect.exists_load isTable_value_reread tree_ofLeaf ht hof h₀
  rw [writeWith, hdoc] at hok
  rw [hreplays.readWith_eq (dialect_gives.fits t (hnest t ht) hof) hok]
  cases anyNull doc.names with
  | true => exact .inr ⟨rfl, rfl⟩
  | false => exact .inl ⟨rfl, id, h', congrArg Except.ok hload⟩

theorem Toml.read_of_writeWith_ok {layer : TextLayer} {ms : Members}
    (hms : dialect.encodeMapping h options root = .ok ms) (hreplays : layer.Replays options.pretty ms)
    (hok : writeWith layer h options root = .ok text)
    (hnest : ∀ t, h.tree? (.table root) = some t → t.height ≤ maxNesting) (h₀ : Heap) :
    (ms ≠ [] ∧ ∃ id h', readWith layer h₀ (Utf8.encode text.toList) = .ok (.table id, h')) ∨
      (ms = [] ∧ readWith layer h₀ (Utf8.encode text.toList) = .error .emptyInput) := by
  obtain ⟨t, ht, hof⟩ := Dialect.exists_tree_of_encodeMapping_ok _ hms
  rw [writeWith, hms] at hok
  rcases hreplays.readWith_eq (dialect_gives.fits_membersOfTree (hnest t ht) hof) hok with
    ⟨hempty, hread⟩ | ⟨hne, ms', -, hread⟩
  · exact .inr ⟨hempty, hread h₀⟩
  · exact .inl ⟨hne, _, _, hread h₀⟩

theorem Xml.exists_read_of_write_ok {e : Element} (he : Element.ofRecord h options root = .ok e) (hmarkup : e.IsMarkup)
    (hok : write h options root = .ok text) (h₀ : Heap) :
    ∃ id h', read h₀ (Utf8.encode text.toList) = .ok (.table id, h') := by
  obtain ⟨n, -, hread⟩ := hmarkup.read_print
  rw [write, he] at hok
  cases hok
  rw [String.toList_ofList]
  exact ⟨_, _, hread h₀⟩

theorem Xml.read_error_of_write_ok {e : Element} (he : Element.ofRecord h options root = .ok e)
    (hnamed : e.isNamed = true) (hmarkup : ¬ e.IsMarkup) (hok : write h options root = .ok text) (h₀ : Heap) :
    read h₀ (Utf8.encode text.toList) = .error (.badSyntax .xml .grammar) := by
  rw [write, he] at hok
  cases hok
  rw [String.toList_ofList]
  exact read_print_error hnamed hmarkup h₀

end

/-- **A text that was written is read as a table if the table is admitted**, and otherwise refused for just that, as long
as names of XML are names at all: tables nest no deeper than the reader goes, and the text layers replay the document. -/
theorem Format.takes_of_writeWith_ok {layers : TextLayers} {format : Format} {h : Heap} {options : Options}
    {root : TableId} {text : String} (hok : format.writeWith layers h options root = .ok text)
    (hreplay : layers.Replay h options root format)
    (hnest : ∀ n ∈ format.maxNesting?, ∀ t, h.tree? (.table root) = some t → t.height ≤ n) :
    (format.Admits h options root → format.Takes layers text) ∧
      ∀ e ∈ format.refusal?, format.IsNamed h options root → ¬ format.Admits h options root →
        ∀ h₀, format.readWith layers h₀ (Utf8.encode text.toList) = .error e := by
  cases format with
  | json => exact ⟨fun _ => Json.exists_read_of_write_ok hok (hnest _ rfl), nofun⟩
  | yaml =>
    obtain ⟨doc, hdoc, -⟩ := bind_eq_ok.1 hok
    have hread := Yaml.read_of_writeWith_ok hdoc (hreplay doc hdoc) hok (hnest _ rfl)
    refine ⟨fun hadmits h₀ => ?_, fun e he _ hadmits h₀ => ?_⟩
    · rcases hread h₀ with ⟨-, hread⟩ | ⟨hnull, -⟩
      · exact hread
      · rw [Yaml.anyNull_eq_false.2 (hadmits doc hdoc)] at hnull
        cases hnull
    · cases he
      rcases hread h₀ with ⟨hnames, -⟩ | ⟨-, hread⟩
      · refine absurd (fun doc' hdoc' => ?_) hadmits
        cases hdoc.symm.trans hdoc'
        exact Yaml.anyNull_eq_false.1 hnames
      · exact hread
  | toml =>
    obtain ⟨ms, hms, -⟩ := bind_eq_ok.1 hok
    have hread := Toml.read_of_writeWith_ok hms (hreplay ms hms) hok (hnest _ rfl)
    have hnil := Toml.eq_nil_of_encodeMapping_ok hms
    refine ⟨fun hadmits h₀ => ?_, fun e he _ hadmits h₀ => ?_⟩
    · rcases hread h₀ with ⟨-, hread⟩ | ⟨hempty, -⟩
      · exact hread
      · exact absurd hadmits (hnil.1 hempty)
    · cases he
      rcases hread h₀ with ⟨hne, -⟩ | ⟨-, hread⟩
      · exact absurd (hnil.2 hadmits) hne
      · exact hread
  | xml =>
    obtain ⟨e, he, -⟩ := bind_eq_ok.1 hok
    refine ⟨fun hadmits => Xml.exists_read_of_write_ok he (hadmits e he) hok, fun err herr hnamed hadmits => ?_⟩
    cases herr
    refine Xml.read_error_of_write_ok he (hnamed e he) (fun hmarkup => hadmits fun e' he' => ?_) hok
    cases he.symm.trans he'
    exact hmarkup

/-- An element in a namespace, with an attribute, a text and a child. -/
def letterhead : Heap :=
  ⟨#[.ofPairs [(.string "tag", .string "p:a"), (.string "attr", .table ⟨1⟩), (.string "text", .string "x & y"),
      (.string "children", .table ⟨2⟩)],
    .ofPairs [(.string "xmlns:p", .string "u"), (.string "k", .string "1")], .ofValues [.table ⟨3⟩],
    .ofPairs [(.string "tag", .string "b")]]⟩

/-- An entry that is written, behind one that is not. -/
def flag : Heap := ⟨#[.ofPairs [(.string "gone", .nil), (.string "a", .bool true)]]⟩

theorem standard_replay_spelled : TextLayers.standard.Replay Yaml.spelled .default ⟨0⟩ .yaml := by
  intro doc hdoc
  have hspelled : Yaml.dialect.encode Yaml.spelled .default ⟨0⟩ = .ok Yaml.spelledDocument := rfl
  cases hspelled.symm.trans hdoc
  exact Yaml.standard_replays_spelledDocument

theorem standard_replay_flag : TextLayers.standard.Replay flag .default ⟨0⟩ .toml := by
  intro ms hms _ text htext
  cases hms
  cases htext
  exact ⟨iff_of_false nofun nofun, [("a", .scalar (.bool true))], rfl,
    .dict (.refl _) rfl (.cons (.scalar (.inl rfl)) .nil)⟩

theorem standard_replay_empty : TextLayers.standard.Replay ⟨#[.empty]⟩ .default ⟨0⟩ .toml := by
  intro ms hms _ text htext
  cases hms
  cases htext
  exact ⟨iff_of_true rfl rfl, [], rfl, .dict .nil rfl .nil⟩

/-- Four texts, three of them admitted. -/
theorem Format.takes_of_writeWith_ok_standard :
    yaml.Takes .standard Yaml.spelledText ∧ toml.Takes .standard "a = true\n" ∧
    (∀ h, toml.readWith .standard h (Utf8.encode "".toList) = .error .emptyInput) ∧
    xml.Takes .standard "<p:a xmlns:p=\"u\" k=\"1\">x &amp; y\n\t<b/>\n</p:a>\n" := by
  have hyaml : yaml.writeWith .standard Yaml.spelled .default ⟨0⟩ = .ok Yaml.spelledText := by decide +kernel
  have hflag : toml.writeWith .standard flag .default ⟨0⟩ = .ok "a = true\n" := by decide +kernel
  have hempty : toml.writeWith .standard ⟨#[.empty]⟩ .default ⟨0⟩ = .ok "" := by decide +kernel
  have hxml : xml.writeWith .standard letterhead .default ⟨0⟩ =
      .ok "<p:a xmlns:p=\"u\" k=\"1\">x &amp; y\n\t<b/>\n</p:a>\n" := by decide +kernel
  refine ⟨(takes_of_writeWith_ok hyaml standard_replay_spelled ?_).1 ?_,
    (takes_of_writeWith_ok hflag standard_replay_flag ?_).1 ?_,
    (takes_of_writeWith_ok hempty standard_replay_empty ?_).2 _ rfl trivial ?_,
    (takes_of_writeWith_ok hxml trivial ?_).1 ?_⟩
  · rintro n ⟨⟩ t ht
    cases ht
    decide
  · intro doc hdoc
    have hspelled : Yaml.dialect.encode Yaml.spelled .default ⟨0⟩ = .ok Yaml.spelledDocument := rfl
    cases hspelled.symm.trans hdoc
    decide +kernel
  · rintro n ⟨⟩ t ht
    cases ht
    decide
  · exact ⟨(.string "a", .bool true), by decide, rfl⟩
  · rintro n ⟨⟩ t ht
    cases ht
    decide
  · rintro ⟨e, he, -⟩
    cases he
  · exact nofun
  · intro e he
    cases he
    decide +kernel

end Interchange
