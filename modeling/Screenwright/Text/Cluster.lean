import Screenwright.Text.ClusterTable
import Screenwright.Text.Range

namespace Screenwright.Cluster
open Text

/-- How a code point behaves at a cluster boundary. -/
inductive Break where
  | carriageReturn | lineFeed | control
  | extend | joiner | spacing | prepend
  | regional | picture
  | lead | vowel | trail | leadVowel | leadVowelTrail
  | other
deriving DecidableEq

def breakOf (c : Char) : Break :=
  let n := c.toNat
  if n = 13 then .carriageReturn
  else if n = 10 then .lineFeed
  else if 32 ≤ n ∧ n < 127 then .other
  else if n = 0x200D then .joiner
  else if 0x1F1E6 ≤ n ∧ n ≤ 0x1F1FF then .regional
  else if 0xAC00 ≤ n ∧ n ≤ 0xD7A3 then
    if (n - 0xAC00) % 28 = 0 then .leadVowel else .leadVowelTrail
  else if within [(0x1100, 0x115F), (0xA960, 0xA97C)] n then .lead
  else if within [(0x1160, 0x11A7), (0xD7B0, 0xD7C6)] n then .vowel
  else if within [(0x11A8, 0x11FF), (0xD7CB, 0xD7FB)] n then .trail
  else if within controlRanges n then .control
  else if within extendRanges n then .extend
  else if within spacingRanges n then .spacing
  else if within prependRanges n then .prepend
  else if within pictureRanges n then .picture
  else .other

/-- What of a cluster's beginning still matters for its continuation. -/
structure Trace where
  last : Break
  /-- A pictograph, extending marks and at last a joiner end here. -/
  linked : Bool
  /-- A pictograph and extending marks end here. -/
  pictured : Bool
  /-- An odd number of regional indicators ends here. -/
  oddRegion : Bool

def Trace.start (b : Break) : Trace := ⟨b, false, b = .picture, b = .regional⟩

def Trace.next (t : Trace) (b : Break) : Trace :=
  ⟨b, t.pictured && b = .joiner, b = .picture || (t.pictured && b = .extend),
    b = .regional && !t.oddRegion⟩

/-- Whether a code point of class `b` continues the cluster. -/
def Trace.joins (t : Trace) (b : Break) : Bool :=
  match t.last, b with
  | .carriageReturn, .lineFeed => true
  | .carriageReturn, _ | .lineFeed, _ | .control, _ => false
  | _, .carriageReturn | _, .lineFeed | _, .control => false
  | .lead, .lead | .lead, .vowel | .lead, .leadVowel | .lead, .leadVowelTrail => true
  | .leadVowel, .vowel | .leadVowel, .trail | .vowel, .vowel | .vowel, .trail => true
  | .leadVowelTrail, .trail | .trail, .trail => true
  | _, .extend | _, .joiner | _, .spacing => true
  | .prepend, _ => true
  | .joiner, .picture => t.linked
  | .regional, .regional => t.oddRegion
  | _, _ => false

/-- Cuts the rest of a text into extended grapheme clusters, given the cluster that has begun before
it. -/
def clustersFrom (t : Trace) (cluster : List Char) : List Char → List (List Char)
  | [] => [cluster.reverse]
  | c :: cs =>
    if t.joins (breakOf c) then clustersFrom (t.next (breakOf c)) (c :: cluster) cs
    else cluster.reverse :: clustersFrom (.start (breakOf c)) [c] cs

def clusters : List Char → List (List Char)
  | [] => []
  | c :: cs => clustersFrom (.start (breakOf c)) [c] cs

end Screenwright.Cluster
