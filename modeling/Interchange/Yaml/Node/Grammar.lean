import Interchange.Entries
import Interchange.Yaml.Node.Basic
import Interchange.Yaml.Token.Basic
/-!
# Grammar — nodes from tokens

Readers give what they read and the tokens after it; there are none where the text is broken.
-/
namespace Interchange
namespace Yaml
namespace Node

/-- What was read, and the tokens after it if the text is not broken. -/
abbrev Reading (α : Type) := α × Option (List Token)

/-- What tag handles stand for. -/
abbrev Handles := Entries String String

def Reading.cons {α : Type} (r : Reading α) (more : List Token → Reading (List α)) : Reading (List α) :=
  match r with
  | (a, none) => ([a], none)
  | (a, some ts) =>
    let (as, rest) := more ts
    (a :: as, rest)

def Reading.member {ρ : Type} (r : Reading (Node ρ)) (value : List Token → Reading (Node ρ)) :
    Reading (Node ρ × Node ρ) :=
  match r with
  | (k, none) => ((k, .broken), none)
  | (k, some ts) =>
    let (v, rest) := value ts
    ((k, v), rest)

def brokenNode : Reading (Node String) := (.broken, none)

def brokenList : Reading (List (Node String)) := ([.broken], none)

def brokenMembers : Reading (List (Node String × Node String)) := ([(.broken, .broken)], none)

/-! ## Properties -/

/-- The anchor and the tag in front of a node, in either order. -/
def properties : List Token → Option String × Option (String × String) × List Token
  | .anchor a :: .tag h r :: ts => (some a, some (h, r), ts)
  | .tag h r :: .anchor a :: ts => (some a, some (h, r), ts)
  | .anchor a :: ts => (some a, none, ts)
  | .tag h r :: ts => (none, some (h, r), ts)
  | ts => (none, none, ts)

def tagText? (handles : Handles) (handle rest : String) : Option String :=
  if handle.isEmpty then some rest else (handles.get? handle).map (· ++ rest)

/-! ## Places where a node may be missing -/

def endsBlockItem : Token → Bool
  | .hyphen | .blockEnd => true
  | _ => false

def endsMember : Token → Bool
  | .key | .value | .blockEnd => true
  | _ => false

def endsInnerItem (t : Token) : Bool := t == .hyphen || endsMember t

def endsFlowItem : Token → Bool
  | .comma | .closeBracket => true
  | _ => false

def endsFlowMember : Token → Bool
  | .comma | .closeBrace => true
  | _ => false

/-- A node, or the empty one in front of some tokens. -/
def optional (isEnd : Token → Bool) (node : List Token → Reading (Node String)) : List Token → Reading (Node String)
  | [] => brokenNode
  | t :: ts => if isEnd t then (.empty, some (t :: ts)) else node (t :: ts)

/-- The value of a member; without its mark it is the empty node. -/
def valueNode (isEnd : Token → Bool) (node : List Token → Reading (Node String)) : List Token → Reading (Node String)
  | [] => brokenNode
  | .value :: ts => optional isEnd node ts
  | ts => (.empty, some ts)

/-! ## Collections -/

/-- The kinds of nodes by where they stand. -/
inductive Context where
  /-- Inside brackets. -/
  | flow
  | block
  /-- In a member of a block mapping, where the items of a sequence need no indentation. -/
  | member
deriving DecidableEq, Repr

mutual

/-- **A node.** -/
def read (handles : Handles) : (fuel : Nat) → Context → List Token → Reading (Node String)
  | 0, _, _ => brokenNode
  | _, _, .alias name :: ts => (.alias name, some ts)
  | fuel + 1, context, ts =>
    let (anchor, tag, ts) := properties ts
    match tag.map fun (h, r) => tagText? handles h r with
    | some none => brokenNode
    | none => content handles fuel context anchor none ts
    | some (some tag) => content handles fuel context anchor (some tag) ts

/-- A node behind its anchor and its tag.  With one of them it may be empty. -/
def content (handles : Handles) :
    (fuel : Nat) → Context → (anchor tag : Option String) → List Token → Reading (Node String)
  | 0, _, _, _, _ => brokenNode
  | fuel + 1, context, anchor, tag, ts =>
    let items (r : Reading (List (Node String))) : Reading (Node String) := (.sequence anchor tag r.1, r.2)
    let members (r : Reading (List (Node String × Node String))) : Reading (Node String) := (.mapping anchor tag r.1, r.2)
    match context, ts with
    | _, [] => brokenNode
    | .member, .hyphen :: ts => items (innerItems handles fuel (.hyphen :: ts))
    | _, .scalar text isPlain :: ts => (.scalar anchor (tag.filter (· != "!")) text isPlain, some ts)
    | _, .openBracket :: ts => items (flowItems handles fuel true ts)
    | _, .openBrace :: ts => members (flowMembers handles fuel true ts)
    | .flow, ts => if anchor.isSome || tag.isSome then (.scalar anchor tag [] true, some ts) else brokenNode
    | _, .blockSequence :: ts => items (blockItems handles fuel ts)
    | _, .blockMapping :: ts => members (blockMembers handles fuel ts)
    | _, ts => if anchor.isSome || tag.isSome then (.scalar anchor tag [] true, some ts) else brokenNode

/-- The items of a block sequence, up to its end. -/
def blockItems (handles : Handles) : (fuel : Nat) → List Token → Reading (List (Node String))
  | 0, _ => brokenList
  | fuel + 1, .hyphen :: ts =>
    (optional endsBlockItem (read handles fuel .block) ts).cons (blockItems handles fuel)
  | _, .blockEnd :: ts => ([], some ts)
  | _, _ => brokenList

/-- The items of a sequence that is not indented, as long as there are any. -/
def innerItems (handles : Handles) : (fuel : Nat) → List Token → Reading (List (Node String))
  | 0, _ => brokenList
  | _, [] => brokenList
  | fuel + 1, .hyphen :: ts =>
    (optional endsInnerItem (read handles fuel .block) ts).cons (innerItems handles fuel)
  | _, ts => ([], some ts)

/-- The members of a block mapping, up to its end. -/
def blockMembers (handles : Handles) : (fuel : Nat) → List Token → Reading (List (Node String × Node String))
  | 0, _ => brokenMembers
  | fuel + 1, .key :: ts =>
    ((optional endsMember (read handles fuel .member) ts).member
      (valueNode endsMember (read handles fuel .member))).cons (blockMembers handles fuel)
  | _, .blockEnd :: ts => ([], some ts)
  | _, _ => brokenMembers

/-- The items in brackets, the first of them or behind one. -/
def flowItems (handles : Handles) : (fuel : Nat) → (first : Bool) → List Token → Reading (List (Node String))
  | 0, _, _ => brokenList
  | _, _, .closeBracket :: ts => ([], some ts)
  | fuel + 1, true, ts => flowItem handles fuel ts
  | fuel + 1, false, .comma :: ts => flowItem handles fuel ts
  | _, false, _ => brokenList

/-- An item in brackets and the items behind it, or the end. -/
def flowItem (handles : Handles) : (fuel : Nat) → List Token → Reading (List (Node String))
  | 0, _ => brokenList
  | _, [] => brokenList
  | _, .closeBracket :: ts => ([], some ts)
  | fuel + 1, .key :: ts => (flowPair handles fuel ts).cons (flowItems handles fuel false)
  | fuel + 1, ts => (read handles fuel .flow ts).cons (flowItems handles fuel false)

/-- A mapping of one member that is an item.  Where its key is missing, the token in place of the key is passed over. -/
def flowPair (handles : Handles) : (fuel : Nat) → List Token → Reading (Node String)
  | 0, _ => brokenNode
  | _, [] => (.mapping none none [(.broken, .broken)], none)
  | fuel + 1, t :: ts =>
    let node := read handles fuel .flow
    let key := if t == .value || endsFlowItem t then (.empty, some ts) else node (t :: ts)
    let (m, rest) := Reading.member key (valueNode endsFlowItem node)
    (.mapping none none [m], rest)

/-- The members in braces, the first of them or behind one. -/
def flowMembers (handles : Handles) :
    (fuel : Nat) → (first : Bool) → List Token → Reading (List (Node String × Node String))
  | 0, _, _ => brokenMembers
  | _, _, .closeBrace :: ts => ([], some ts)
  | fuel + 1, true, ts => flowMember handles fuel ts
  | fuel + 1, false, .comma :: ts => flowMember handles fuel ts
  | _, false, _ => brokenMembers

/-- A member in braces and the members behind it, or the end.  A key without its mark has no value. -/
def flowMember (handles : Handles) : (fuel : Nat) → List Token → Reading (List (Node String × Node String))
  | 0, _ => brokenMembers
  | _, [] => brokenMembers
  | _, .closeBrace :: ts => ([], some ts)
  | fuel + 1, .key :: ts =>
    let node := read handles fuel .flow
    ((optional (fun t => t == .value || endsFlowMember t) node ts).member (valueNode endsFlowMember node)).cons
      (flowMembers handles fuel false)
  | fuel + 1, ts =>
    ((read handles fuel .flow ts).member fun ts =>
        match ts with
        | [] => brokenNode
        | ts => (.empty, some ts)).cons
      (flowMembers handles fuel false)

end

/-! ## Documents -/

def commonHandles : Handles := [("!", "!"), ("!!", "tag:yaml.org,2002:")]

/-- The directives of a document: one version at most, and each handle once. -/
def directives? : (versioned : Bool) → Handles → List Token → Option (Handles × List Token)
  | versioned, handles, .version major minor :: ts =>
    if versioned || major != 1 || (minor != 1 && minor != 2) then none else directives? true handles ts
  | versioned, handles, .handle name start :: ts =>
    if (handles.get? name).isSome then none else directives? versioned (handles.set name start) ts
  | _, handles, ts => some (commonHandles.setAll handles, ts)

/-- A root node, and whether nothing but ends of documents follows it. -/
def stream (r : Reading (Node String)) : Stream String where
  root := some r.1
  isWhole :=
    match r.2 with
    | none => false
    | some ts => ts.dropWhile (· == .documentEnd) == [.textEnd]

/-- The root of a document behind its start mark, which may be missing. -/
def rootNode (handles : Handles) (fuel : Nat) (ts : List Token) : Reading (Node String) :=
  match ts with
  | .version .. :: _ | .handle .. :: _ | .documentStart :: _ | .documentEnd :: _ | .textEnd :: _ => (.empty, some ts)
  | ts => read handles fuel .block ts

/-- **The tree of the first document** that tokens make up. -/
def ofTokens (ts : List Token) : Stream String :=
  let fuel := 4 * ts.length + 4
  match ts with
  | [.textEnd] => ⟨none, true⟩
  | .version .. :: _ | .handle .. :: _ | .documentStart :: _ =>
    match directives? false [] ts with
    | some (handles, .documentStart :: ts) => stream (rootNode handles fuel ts)
    | _ => stream brokenNode
  | ts => stream (read commonHandles fuel .block ts)

end Node
end Yaml
end Interchange
