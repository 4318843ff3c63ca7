import Screenwright.Text.ClusterTable
import Screenwright.Text.Range
import Screenwright.Text.VisibleTable

namespace Screenwright.Visible
open Text

/-- Marks that join the character before them; skin tones stand for themselves. -/
def isMark (c : Char) : Bool :=
  within Cluster.extendRanges c.toNat && !(0x1F3FB ≤ c.toNat && c.toNat ≤ 0x1F3FF)

def isHidden (c : Char) : Bool := within hiddenRanges c.toNat

def codePoint (c : Char) : List Char :=
  ['\\', 'u', '\x7b'] ++ Nat.toDigits 16 c.toNat ++ ['\x7d']

/-- What a reader could not see, or would see joined to the character before it, is written by its
code point. -/
def escape (c : Char) : List Char :=
  if c = '"' then ['\\', '"']
  else if c = '\\' then ['\\', '\\']
  else if c = '\n' then ['\\', 'n']
  else if c = '\r' then ['\\', 'r']
  else if c = '\t' then ['\\', 't']
  else if c = '\x00' then ['\\', '0']
  else if 32 ≤ c.toNat ∧ c.toNat < 127 then [c]
  else if isMark c || isHidden c then codePoint c
  else [c]

def quote (s : String) : String := "\"" ++ String.ofList (s.toList.flatMap escape) ++ "\""

end Screenwright.Visible
