import Interchange.Codec
/-!
# Conversion — text through a path of formats

Text is read in one format and written in the next, again and again.  A round trip writes a table, reads the text back
and writes what was read.
-/
namespace Interchange

/-- What a step of a conversion gives. -/
inductive Passage where
  | text (s : String)
  | notTable (typeName : String)
  | failed (error : Error)
deriving DecidableEq, Repr

/-- **The texts along a path of formats**, up to the first thing that is not a table or not to be read or written. -/
def convertAlong (options : Options) (input : List UInt8) : Format → List Format → List Passage
  | _, [] => []
  | source, target :: path =>
    match source.read .empty input with
    | .error e => [.failed e]
    | .ok (.table id, h) =>
      match target.write h options id with
      | .error e => [.failed e]
      | .ok text => .text text :: convertAlong options (Utf8.encode text.toList) target path
    | .ok (v, _) => [.notTable v.typeName]

/-- A conversion along named formats; a path of fewer than two has no step. -/
def convert (options : Options) (input : List UInt8) (path : List String) : Except Error (List Passage) := do
  match ← path.mapM Format.ofName with
  | [] => return []
  | source :: path => return convertAlong options input source path

/-- The result of reading a text back. -/
structure Return where
  heap : Heap
  value : Value
  /-- Whether the value equals the table that was written. -/
  equal : Bool
  /-- The text of the value, if it is a table. -/
  again : Option (Except Error String)

/-- A text and what came of reading it back. -/
structure RoundTrip where
  text : String
  back : Except Error Return

/-- **Write a table, read the text and write what was read.** -/
def roundTrip (format : Format) (h : Heap) (options : Options) (root : TableId) : Except Error RoundTrip := do
  let text ← format.write h options root
  let back := (format.read h (Utf8.encode text.toList)).map fun (v, h) =>
    ⟨h, v, h.equal v (.table root), v.table?.map (format.write h options)⟩
  return ⟨text, back⟩

end Interchange
