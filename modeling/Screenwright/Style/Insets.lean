import Screenwright.Style.Length

namespace Screenwright.Style
open Design

inductive Insets where
  | uniform (all : Int)
  | symmetric (vertical horizontal : Int)
  | each (left top right bottom : Int)
deriving DecidableEq

namespace Insets

def zero : Insets := .uniform 0

/-- Left, top, right and bottom. -/
def sides : Insets → List Int
  | .uniform v => [v, v, v, v]
  | .symmetric v h => [h, v, h, v]
  | .each l t r b => [l, t, r, b]

/-- One word for all sides, two for vertical and horizontal, four for top, right, bottom and left. A
word without a leading integer counts as zero; so does every other number of words. -/
def ofText (s : String) : Insets :=
  match (Text.words s).map fun w => (leadingInt w).getD 0 with
  | [all] => .uniform all
  | [vertical, horizontal] => .symmetric vertical horizontal
  | [top, right, bottom, left] => .each left top right bottom
  | _ => zero

/-- An integer of 64 bits, or the nearest one. -/
def clamp (n : Int) : Int := max (-0x8000000000000000) (min n 0x7FFFFFFFFFFFFFFF)

/-- The fractional part of a number is cut off. -/
def of (value : Option PropValue) : Insets :=
  match value with
  | some (.number x) => if x.isFinite then .uniform (clamp x.truncate) else zero
  | some (.text s) => ofText s
  | _ => zero

end Insets
end Screenwright.Style
