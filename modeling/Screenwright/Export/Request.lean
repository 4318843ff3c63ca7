import Screenwright.Export.Error
import Screenwright.Json.Decode
import Screenwright.Json.Printer

namespace Screenwright.Export
open Json Decode

/-- Design documents by the labels of screens. -/
abbrev Request := Catalog String

namespace Request

/-- A document in a JSON request may stand for itself; it is then kept as compact JSON with its keys
sorted. -/
def documentOf : Value → String
  | .string s => s
  | v => v.canonical.compact

def decode (depth : Nat) (o : Outline) : Except Fault Request := do
  let members ← mapOf value depth o
  return .ofList (members.map fun e => (e.1, documentOf e.2))

def parse (source : String) : Except ExportError Request :=
  (whole decode source).mapError .invalidRequest

def toValue (r : Request) : Value := .object (r.entries.map fun e => (e.1, .string e.2))

end Request
end Screenwright.Export
