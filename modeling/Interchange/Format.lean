import Interchange.Number.Reading
/-!
# Formats — the four document languages and their names
-/
namespace Interchange

inductive Format where
  | json
  | yaml
  | toml
  | xml
deriving DecidableEq, Repr

namespace Format

def all : List Format := [json, yaml, toml, xml]

/-- The name of a format, which is also its usual file extension. -/
def name : Format → String
  | json => "json"
  | yaml => "yaml"
  | toml => "toml"
  | xml => "xml"

def fileExtension : Format → String := name

/-- **The format with a name**, letter case aside; YAML has a second, shorter name. -/
def ofName? (s : String) : Option Format :=
  let s := String.ofList (s.toList.map lowerAscii)
  if s = "yml" then some yaml else all.find? (·.name == s)

end Format
end Interchange
