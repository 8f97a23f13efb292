/-!
# Words — what a text starts with
-/
namespace Interchange

def strip? : (word cs : List Char) → Option (List Char)
  | [], cs => some cs
  | _ :: _, [] => none
  | w :: ws, c :: cs => if w = c then strip? ws cs else none

def startsWith (word cs : List Char) : Bool := (strip? word cs).isSome

end Interchange
