import Screenwright.Catalog
import Screenwright.Design.PropValue

namespace Screenwright.Design

abbrev Props := Catalog PropValue

namespace Props

def text? (p : Props) (key : String) : Option String := (p.get? key).bind PropValue.text?

/-- How a truthy property is displayed, or else the given text. -/
def textOr (p : Props) (key default : String) : String :=
  match p.get? key with
  | some value => if value.isTruthy then value.display else default
  | none => default

def firstTruthy (p : Props) (keys : List String) : Option PropValue :=
  (keys.filterMap fun key => p.get? key).find? PropValue.isTruthy

def decode (depth : Nat) (o : Json.Outline) : Except Json.Fault Props :=
  Catalog.ofList <$> Json.Decode.mapOf PropValue.decode depth o

def parse (source : String) : Except Json.Error Props := Json.Decode.whole decode source

def toValue (p : Props) : Json.Value :=
  .object (p.entries.map fun e => (e.1, e.2.toValue))

end Props
end Screenwright.Design
