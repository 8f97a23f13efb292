import Interchange.Format
import Interchange.Json.Fault
import Interchange.Text.Utf8
/-!
# Errors — causes, their kinds and their wording

An error is a cause with what it needs to be reported.  One function words them all.
-/
namespace Interchange

/-- Why a text is not a document of its format. -/
inductive Reason where
  | json (cause : Json.Cause) (place : Json.Place)
  | utf8 (index : Nat) (fault : Utf8Fault)
  /-- The text breaks the grammar of its format; nothing more is said. -/
  | grammar
  /-- A reason in words. -/
  | stated (text : String)
deriving DecidableEq, Repr

inductive Error where
  | emptyInput
  | badSyntax (format : Format) (reason : Reason)
  | cyclicStructure
  | keyType (found : String)
  | nonStringKey (format : Format) (found : String)
  | nonScalarKey
  | unsupportedValueType (format : Format) (found : String)
  | binaryUnsupported
  | tagMissing
  | attrKeyType (found : String)
  | attrValueType (found : String)
  | childrenType (found : String)
  | fieldType (field expected found : String)
  | typeMismatch (expected found : String)
  | depthLimitExceeded (limit : Nat)
  | emit (format : Format) (reason : String)
  | unknownFormat (name : String)
deriving DecidableEq, Repr

/-- What an error is about: the request, the text, or the data. -/
inductive ErrorKind where
  | input
  | badSyntax
  | structural
deriving DecidableEq, Repr

def Reason.message : Reason → String
  | json cause place =>
    cause.message ++ " at line " ++ toString place.line ++ " column " ++ toString place.column
  | utf8 index fault => Utf8.faultMessage index fault
  | grammar => "malformed document"
  | stated text => text

namespace Error

def kind : Error → ErrorKind
  | emptyInput => .input
  | unknownFormat _ => .input
  | badSyntax _ _ => .badSyntax
  | _ => .structural

/-- **The wording of an error.** -/
def message : Error → String
  | emptyInput => "cannot deserialize empty input"
  | badSyntax format reason => format.name ++ " parse error: " ++ reason.message
  | cyclicStructure => "cannot serialize cyclic table"
  | keyType found => "json object keys must be strings, found " ++ found
  | nonStringKey format found => format.name ++ " mapping keys must be strings, found " ++ found
  | nonScalarKey => "yaml mapping keys must be scalars (string/number/bool)"
  | unsupportedValueType format found => "unsupported type for " ++ format.name ++ " serialization: " ++ found
  | binaryUnsupported => "binary json values are not supported"
  | tagMissing => "xml element missing non-empty tag"
  | attrKeyType found => "xml attr keys must be strings, found " ++ found
  | attrValueType found => "xml attr values must be strings, found " ++ found
  | childrenType found => "xml children must be tables, found " ++ found
  | fieldType field expected found => "xml " ++ field ++ " must be " ++ expected ++ ", found " ++ found
  | typeMismatch expected found => "type mismatch: expected " ++ expected ++ ", found " ++ found
  | depthLimitExceeded limit => "table nesting exceeds the configured limit of " ++ toString limit
  | emit format reason => format.name ++ " emit failed: " ++ reason
  | unknownFormat name => "unknown format: " ++ name

end Error
end Interchange
