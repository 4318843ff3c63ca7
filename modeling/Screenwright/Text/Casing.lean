import Screenwright.Text.CaseTable
import Screenwright.Text.Digits

namespace Screenwright.Casing

def listed (runs : List (Nat × Nat × Nat)) (c : Char) : Bool :=
  runs.any fun (first, last, step) =>
    first ≤ c.toNat && c.toNat ≤ last && (c.toNat - first) % step = 0

/-- A cluster is upper case when raising it changes nothing and lowering it would. -/
def isUpper (cluster : List Char) : Bool :=
  cluster.all (!listed raisable ·) && cluster.any (listed lowerable ·)

def isLower (cluster : List Char) : Bool :=
  cluster.all (!listed lowerable ·) && cluster.any (listed raisable ·)

def isNumber (cluster : List Char) : Bool := cluster.all Text.isDigit

/-- Upper-case ASCII letters become lower case; no other character changes. -/
def lowerAscii (c : Char) : Char :=
  if 'A' ≤ c ∧ c ≤ 'Z' then Char.ofNat (c.toNat + 32) else c

def upperAscii (c : Char) : Char :=
  if 'a' ≤ c ∧ c ≤ 'z' then Char.ofNat (c.toNat - 32) else c

/-- Lower-casing as far as ASCII is concerned: besides the ASCII capitals, the dotted
capital I and the Kelvin sign are the only characters with an ASCII letter below them. -/
def lowerToAscii (c : Char) : Char :=
  if c = '\u0130' then 'i' else if c = '\u212a' then 'k' else lowerAscii c

end Screenwright.Casing
