import Screenwright.Json.Decode

namespace Screenwright.Design

/-- A value of a property. Only truth values, numbers and texts count; any other JSON value is kept
and treated as absent. -/
inductive PropValue where
  | bool (b : Bool)
  | number (x : Binary64)
  | text (s : String)
  | other (v : Json.Value)

namespace PropValue

/-- Every number becomes a double; what does not count is kept in canonical form. -/
def ofValue : Json.Value → PropValue
  | .bool b => .bool b
  | .number n => .number n.toBinary64
  | .string s => .text s
  | v => .other v.canonical

def toValue : PropValue → Json.Value
  | .bool b => .bool b
  | .number x => .number (.float x)
  | .text s => .string s
  | .other v => v

def decode (depth : Nat) (o : Json.Outline) : Except Json.Fault PropValue :=
  ofValue <$> Json.Decode.value depth o

def parse (source : String) : Except Json.Error PropValue := Json.Decode.whole decode source

def text? : PropValue → Option String
  | .text s => some s
  | _ => none

/-- `false`, zero, not-a-number, the empty text and `null` are not truthy. -/
def isTruthy : PropValue → Bool
  | .bool b => b
  | .number x => !x.isZero && !x.isNaN
  | .text s => !s.isEmpty
  | .other .null => false
  | .other _ => true

def display : PropValue → String
  | .bool b => if b then "true" else "false"
  | .number x => x.plain
  | .text s => s
  | .other _ => ""

end PropValue
end Screenwright.Design
