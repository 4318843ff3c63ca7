import Screenwright.Json.Value
import Screenwright.Text.Digits

namespace Screenwright.Json

/-- Written form of a character inside a string: only quotes, backslashes and control
characters are escaped. -/
def escape (c : Char) : List Char :=
  if c = '"' then ['\\', '"']
  else if c = '\\' then ['\\', '\\']
  else if c = '\x08' then ['\\', 'b']
  else if c = '\x0c' then ['\\', 'f']
  else if c = '\n' then ['\\', 'n']
  else if c = '\r' then ['\\', 'r']
  else if c = '\t' then ['\\', 't']
  else if c.toNat < 32 then
    ['\\', 'u', '0', '0', Nat.digitChar (c.toNat / 16), Nat.digitChar (c.toNat % 16)]
  else [c]

def quote (s : String) : String := "\"" ++ String.ofList (s.toList.flatMap escape) ++ "\""

def Number.text : Number → String
  | .int n => toString n
  | .float x => if x.isFinite then x.scientific else "null"

namespace Value

mutual

def compact : Value → String
  | .null => "null"
  | .bool b => if b then "true" else "false"
  | .number n => n.text
  | .string s => quote s
  | .array items => "[" ++ compactItems items ++ "]"
  | .object members => "\x7b" ++ compactMembers members ++ "\x7d"

def compactItems : List Value → String
  | [] => ""
  | [v] => v.compact
  | v :: vs => v.compact ++ "," ++ compactItems vs

def compactMembers : List (String × Value) → String
  | [] => ""
  | [(k, v)] => quote k ++ ":" ++ v.compact
  | (k, v) :: ms => quote k ++ ":" ++ v.compact ++ "," ++ compactMembers ms

end

def lineBreak (depth : Nat) : String := "\n" ++ String.ofList (List.replicate (2 * depth) ' ')

mutual

/-- Every item and member on a line of its own; empty containers stay closed. -/
def prettyAt (depth : Nat) : Value → String
  | .array [] => "[]"
  | .object [] => "\x7b\x7d"
  | .array items => "[" ++ prettyItems (depth + 1) items ++ lineBreak depth ++ "]"
  | .object members =>
    "\x7b" ++ prettyMembers (depth + 1) members ++ lineBreak depth ++ "\x7d"
  | v => v.compact

def prettyItems (depth : Nat) : List Value → String
  | [] => ""
  | [v] => lineBreak depth ++ v.prettyAt depth
  | v :: vs => lineBreak depth ++ v.prettyAt depth ++ "," ++ prettyItems depth vs

def prettyMembers (depth : Nat) : List (String × Value) → String
  | [] => ""
  | [(k, v)] => lineBreak depth ++ quote k ++ ": " ++ v.prettyAt depth
  | (k, v) :: ms =>
    lineBreak depth ++ quote k ++ ": " ++ v.prettyAt depth ++ "," ++ prettyMembers depth ms

end

def pretty (v : Value) : String := v.prettyAt 0

end Value
end Screenwright.Json
