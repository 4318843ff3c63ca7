import Screenwright.Number.Numeral

namespace Screenwright.Json

/-- A number: whole numerals of up to 64 bits stay exact. -/
inductive Number where
  | int (n : Int)
  | float (x : Binary64)
deriving DecidableEq

def Number.toBinary64 : Number → Binary64
  | .int n => .ofInt n
  | .float x => x

/-- A value. Objects keep their members as they were written, repeated keys included. -/
inductive Value where
  | null
  | bool (b : Bool)
  | number (n : Number)
  | string (s : String)
  | array (items : List Value)
  | object (members : List (String × Value))

namespace Value

/-- Puts a member in front of the first member with a larger key. -/
def insertSorted (key : String) (value : Value) :
    List (String × Value) → List (String × Value)
  | [] => [(key, value)]
  | (k, v) :: ms =>
    if k < key then (k, v) :: insertSorted key value ms else (key, value) :: (k, v) :: ms

mutual

/-- Sorts the members of every object by key; of equal keys the last one stays. -/
def canonical : Value → Value
  | .array items => .array (canonicalItems items)
  | .object members => .object (canonicalMembers members)
  | v => v

def canonicalItems : List Value → List Value
  | [] => []
  | v :: vs => v.canonical :: canonicalItems vs

def canonicalMembers : List (String × Value) → List (String × Value)
  | [] => []
  | (k, v) :: ms =>
    let rest := canonicalMembers ms
    if rest.any (·.1 = k) then rest else insertSorted k v.canonical rest

end

/-- The value of an object's member; of equal keys the last one counts. -/
def member? (key : String) : Value → Option Value
  | .object members => (members.reverse.find? (·.1 = key)).map Prod.snd
  | _ => none

end Value
end Screenwright.Json
