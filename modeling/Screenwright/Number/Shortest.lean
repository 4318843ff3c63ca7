import Screenwright.Number.Binary64

namespace Screenwright

/-- `digits * 10 ^ exponent`. -/
structure Decimal where
  digits : Nat
  exponent : Int
deriving DecidableEq

namespace Decimal

def width (n : Nat) : Nat := (Nat.toDigits 10 n).length

/-- Moves trailing zeros of the digits into the exponent. -/
def strip : Nat → Decimal → Decimal
  | 0, d => d
  | n + 1, d => if d.digits % 10 = 0 then strip n ⟨d.digits / 10, d.exponent + 1⟩ else d

end Decimal

/-- Which way an exact tie between two digit strings goes. -/
inductive Tie where
  | up
  | even

namespace Binary64

/-- The interval of numbers that round to a finite double, in quarters of a unit.
The ends belong to it when the significand is even. -/
structure Reach where
  low : Nat
  high : Nat
  closed : Bool

/-- Below a power of two the neighbours are half as far apart. -/
def reach (x : Binary64) : Reach :=
  let step := Nat.pow 2 x.scale
  let below := if x.significand = leadingBit ∧ 0 < x.scale then step else 2 * step
  ⟨4 * x.magnitude - below, 4 * x.magnitude + 2 * step, x.significand % 2 = 0⟩

/-- Whether `num / den` quarters of a unit lie within reach. -/
def Reach.holds (r : Reach) (num den : Nat) : Bool :=
  if r.closed then r.low * den ≤ num ∧ num ≤ r.high * den
  else r.low * den < num ∧ num < r.high * den

/-- The largest `e` with `10 ^ e` at most the size of a non-zero double. -/
def leadingExponent (x : Binary64) : Int :=
  if one ≤ x.magnitude then Decimal.width (x.magnitude / one) - 1
  else -(Decimal.width ((one + x.magnitude - 1) / x.magnitude - 1) : Nat)

/-- The multiple of `10 ^ exponent` that reads back as the double, if there is one:
the candidates are the two multiples around its size. -/
def onGrid (tie : Tie) (x : Binary64) (exponent : Int) : Option Decimal :=
  let up := Nat.pow 10 exponent.toNat
  let down := Nat.pow 10 (-exponent).toNat
  let num := x.magnitude * down
  let den := one * up
  let floor := num / den
  let holds := fun n : Nat => x.reach.holds (4 * n * den) down
  let twice := 2 * (num % den)
  let upper : Bool := match tie with
    | .up => den ≤ twice
    | .even => den < twice ∨ (twice = den ∧ floor % 2 = 1)
  match holds floor, holds (floor + 1) with
  | true, true => some ⟨if upper then floor + 1 else floor, exponent⟩
  | true, false => some ⟨floor, exponent⟩
  | false, true => some ⟨floor + 1, exponent⟩
  | false, false => none

/-- The shortest digits of a finite double; seventeen always suffice. -/
def shortest (tie : Tie) (x : Binary64) : Decimal :=
  if x.magnitude = 0 then ⟨0, 0⟩
  else
    let top := x.leadingExponent
    let found := (List.range 17).findSome? fun n : Nat => x.onGrid tie (top - n)
    let d := found.getD ⟨x.magnitude, 0⟩
    d.strip (Decimal.width d.digits)

end Binary64
end Screenwright
