import Screenwright.Json.Value
import Screenwright.Text.Visible

namespace Screenwright.Json

inductive Found where
  | null
  | bool (b : Bool)
  | number (n : Number)
  | string (s : String)
  | sequence
  | map

inductive Cause where
  | endOfValue
  | endOfString
  | endOfList
  | endOfObject
  | expectedValue
  | expectedWord
  | expectedColon
  | expectedListEnd
  | expectedObjectEnd
  | keyNotString
  | trailingComma
  | trailingText
  | badNumber
  | numberRange
  | badEscape
  | loneSurrogate
  | unfinishedPair
  | controlCharacter
  | tooDeep
  | wrongType (found : Found) (expected : String)
  | wrongInteger (n : Int) (expected : String)
  | duplicateField (name : String)
  | unknownVariant (name : String) (known : List String)
  | noVariant (name : String)

/-- A cause and the number of bytes behind the place where it was met. -/
structure Fault where
  cause : Cause
  remaining : Nat

def byteLength (cs : List Char) : Nat := cs.foldl (fun n c => n + c.utf8Size) 0

def Fault.here (cause : Cause) (rest : List Char) : Fault := ⟨cause, byteLength rest⟩

/-- A fault one byte into the rest of the text, or at its end. -/
def Fault.past (cause : Cause) (rest : List Char) : Fault := ⟨cause, byteLength rest - 1⟩

def Fault.atEnd (cause : Cause) : Fault := ⟨cause, 0⟩

def Found.message : Found → String
  | .null => "null"
  | .bool b => "boolean `" ++ (if b then "true" else "false") ++ "`"
  | .number (.int n) => "integer `" ++ toString n ++ "`"
  | .number (.float x) => "floating point `" ++ x.scientific ++ "`"
  | .string s => "string " ++ Visible.quote s
  | .sequence => "sequence"
  | .map => "map"

/-- A list of names in backticks, as a choice. -/
def choice : List String → String
  | [] => "there are no variants"
  | [a] => "expected `" ++ a ++ "`"
  | [a, b] => "expected `" ++ a ++ "` or `" ++ b ++ "`"
  | names => "expected one of " ++ ", ".intercalate (names.map fun a => "`" ++ a ++ "`")

def Cause.message : Cause → String
  | .endOfValue => "EOF while parsing a value"
  | .endOfString => "EOF while parsing a string"
  | .endOfList => "EOF while parsing a list"
  | .endOfObject => "EOF while parsing an object"
  | .expectedValue => "expected value"
  | .expectedWord => "expected ident"
  | .expectedColon => "expected `:`"
  | .expectedListEnd => "expected `,` or `]`"
  | .expectedObjectEnd => "expected `,` or `\x7d`"
  | .keyNotString => "key must be a string"
  | .trailingComma => "trailing comma"
  | .trailingText => "trailing characters"
  | .badNumber => "invalid number"
  | .numberRange => "number out of range"
  | .badEscape => "invalid escape"
  | .loneSurrogate => "lone leading surrogate in hex escape"
  | .unfinishedPair => "unexpected end of hex escape"
  | .controlCharacter =>
    "control character (\\u0000-\\u001F) found while parsing a string"
  | .tooDeep => "recursion limit exceeded"
  | .wrongType found expected => "invalid type: " ++ found.message ++ ", expected " ++ expected
  | .wrongInteger n expected =>
    "invalid value: integer `" ++ toString n ++ "`, expected " ++ expected
  | .duplicateField name => "duplicate field `" ++ name ++ "`"
  | .unknownVariant name known => "unknown variant `" ++ name ++ "`, " ++ choice known
  | .noVariant name => "data did not match any variant of untagged enum " ++ name

/-- A cause with its line and its column in bytes, the first line being 1. -/
structure Error where
  cause : Cause
  line : Nat
  column : Nat

def lineColumn (bytes : List UInt8) : Nat × Nat :=
  bytes.foldl (fun place b => if b = 10 then (place.1 + 1, 0) else (place.1, place.2 + 1)) (1, 0)

def Fault.locate (source : String) (f : Fault) : Error :=
  let bytes := source.toUTF8.toList
  let (line, column) := lineColumn (bytes.take (bytes.length - f.remaining))
  ⟨f.cause, line, column⟩

def Error.message (e : Error) : String :=
  e.cause.message ++ " at line " ++ toString e.line ++ " column " ++ toString e.column

end Screenwright.Json
