/-!
# Options — how a table is written
-/
namespace Interchange

structure Options where
  pretty : Bool
  /-- The most tables that may be open inside each other. -/
  maxDepth : Option Nat
deriving DecidableEq, Repr

namespace Options

def default : Options := ⟨false, none⟩

/-- Text laid out for reading, and no depth limit. -/
def readable : Options := ⟨true, none⟩

def withPretty (o : Options) (pretty : Bool) : Options := { o with pretty }

def withMaxDepth (o : Options) (limit : Nat) : Options := { o with maxDepth := some limit }

end Options
end Interchange
