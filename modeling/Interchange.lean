import Interchange.CommandLine
import Interchange.Main
import Interchange.Proofs.Form
import Interchange.Proofs.Tree
import Interchange.Proofs.Unfolding
import Interchange.Proofs.Encoding
import Interchange.Proofs.Sharing
import Interchange.Proofs.Shape
import Interchange.Proofs.Traversal
import Interchange.Proofs.Refusal
import Interchange.Proofs.Readback
import Interchange.Proofs.Json.Number
import Interchange.Proofs.Json.Quoted
import Interchange.Proofs.Documents
import Interchange.Proofs.Json.Text
import Interchange.Proofs.NormalForm
import Interchange.Proofs.Json.RoundTrip
import Interchange.Proofs.Yaml.RoundTrip
import Interchange.Proofs.Xml.Building
import Interchange.Proofs.Toml.Replay
import Interchange.Proofs.Acceptance
import Interchange.Proofs.Xml.Records
import Interchange.Proofs.Xml.Refusal
import Interchange.Proofs.Image
import Interchange.Proofs.Same
import Interchange.Proofs.Carried
import Interchange.Proofs.Toml.RoundTrip
import Interchange.Proofs.Common
import Interchange.Proofs.Relay
import Interchange.Proofs.Xml.Resolving
import Interchange.Proofs.Xml.RoundTrip
import Interchange.Proofs.Xml.Stability
import Interchange.Proofs.Limit
import Interchange.Proofs.Settled
import Interchange.Proofs.Json.Reading
import Interchange.Proofs.Json.Settling
import Interchange.Proofs.Yaml.Settling
import Interchange.Proofs.Toml.Settling
import Interchange.Proofs.Settling
import Interchange.Proofs.Members
import Interchange.Proofs.Guarding
import Interchange.Proofs.Xml.Inert
import Interchange.Proofs.Xml.Nesting
import Interchange.Proofs.Xml.Descent
import Interchange.Proofs.Xml.Meaning
import Interchange.Proofs.Xml.Attributes
import Interchange.Proofs.Border
import Interchange.Proofs.Equality
import Interchange.Proofs.Transitivity
import Interchange.Proofs.Yaml.Quoting
import Interchange.Proofs.Keys
import Interchange.Proofs.Counting
import Interchange.Proofs.Numerals
import Interchange.Proofs.Threading
