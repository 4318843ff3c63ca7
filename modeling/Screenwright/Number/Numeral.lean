import Screenwright.Number.Shortest

namespace Screenwright

namespace Decimal

def zeros (n : Nat) : String := String.ofList (List.replicate n '0')

def figures (d : Decimal) : List Char := Nat.toDigits 10 d.digits

/-- Where the decimal point stands, counted from the first digit. -/
def point (d : Decimal) : Int := d.figures.length + d.exponent

/-- All digits written out, around a point where there is a fraction. -/
def positional (d : Decimal) : String :=
  if 0 ≤ d.exponent then String.ofList d.figures ++ zeros d.exponent.toNat
  else if 0 < d.point then
    String.ofList (d.figures.take d.point.toNat) ++ "." ++
      String.ofList (d.figures.drop d.point.toNat)
  else "0." ++ zeros (-d.point).toNat ++ String.ofList d.figures

/-- One digit before the point and an exponent with its sign. -/
def exponential (d : Decimal) : String :=
  let e := d.point - 1
  let lead := String.ofList (d.figures.take 1)
  let rest := d.figures.drop 1
  let body := if rest.isEmpty then lead else lead ++ "." ++ String.ofList rest
  body ++ "e" ++ (if e < 0 then "-" else "+") ++ toString e.natAbs

end Decimal

namespace Binary64

def sign (x : Binary64) : String := if x.negative then "-" else ""

def special (x : Binary64) : String :=
  if x.isNaN then "NaN" else x.sign ++ "inf"

/-- Shortest digits without an exponent; an exact tie goes up. -/
def digitsText (x : Binary64) : String :=
  if x.isFinite then x.sign ++ (x.shortest .up).positional else x.special

/-- A whole number below `10 ^ 15` is written as an integer, anything else by its digits. -/
def plain (x : Binary64) : String :=
  if x.isWhole ∧ x.truncate.natAbs < 1000000000000000 then toString x.truncate else x.digitsText

/-- A whole number is written in full and gets a fraction of zero. -/
def pointed (x : Binary64) : String :=
  if x.isWhole then x.sign ++ toString x.truncate.natAbs ++ ".0" else x.digitsText

/-- The form of JSON output of a finite number: shortest digits, a tie to the even digit, and an
exponent outside `1e-5` to `1e16`. -/
def scientific (x : Binary64) : String :=
  let d := x.shortest .even
  if x.magnitude = 0 then x.sign ++ "0.0"
  else if -5 ≤ d.point - 1 ∧ d.point - 1 ≤ 15 then
    x.sign ++ d.positional ++ (if 0 ≤ d.exponent then ".0" else "")
  else x.sign ++ d.exponential

end Binary64
end Screenwright
