import Screenwright.Text.Blank
import Screenwright.Text.Casing

namespace Screenwright.Screen

/-- A base identifier; all names of a screen are made of it. -/
structure Name where
  base : String
deriving DecidableEq, BEq

namespace Name

def className (n : Name) : String := "Screen" ++ n.base

/-- The base in lower case; bases are ASCII. -/
def fileName (n : Name) : String :=
  "screen_" ++ String.ofList (n.base.toList.map Casing.lowerAscii) ++ ".dart"

def routePath (n : Name) : String := "/" ++ n.base

/-- What a base may consist of: ASCII letters, digits and underscores. -/
def isBaseChar (c : Char) : Bool :=
  Text.isDigit c || ('a' ≤ c && c ≤ 'z') || ('A' ≤ c && c ≤ 'Z') || c = '_'

def capitalize : List Char → List Char
  | [] => []
  | c :: cs => Casing.upperAscii c :: cs

/-- The base of a label without a usable character. -/
def untitled : String := "Untitled"

/-- Joins the words of a label, each without its other characters and capitalized. -/
def ofLabel (label : String) : Name :=
  let base := (Text.pieces Text.isBlank label.toList).flatMap fun w =>
    capitalize (w.filter isBaseChar)
  ⟨if base.isEmpty then untitled else String.ofList base⟩

def withSuffix (n : Name) (k : Nat) : Name := ⟨n.base ++ toString k⟩

end Name
end Screenwright.Screen
