namespace Screenwright

/-- A double-precision number, given by its 64 bits. A finite one stands for
`significand * 2 ^ scale` units of `2 ^ -1074`, so comparing, cutting off and rounding are exact
arithmetic on natural numbers. -/
structure Binary64 where
  bits : UInt64
deriving DecidableEq

namespace Binary64

def word (x : Binary64) : Nat := x.bits.toNat

def signBit : Nat := 0x8000000000000000

/-- The weight of the leading one of the significant bits, above all stored ones. -/
def leadingBit : Nat := 0x10000000000000

/-- The exponent that is stored for what is not finite. -/
def lastExponent : Nat := 2047

/-- Zero and not-a-number carry a sign too. -/
def negative (x : Binary64) : Bool := signBit ≤ x.word

/-- The stored exponent: 0 for the smallest numbers, the last one for what is not finite. -/
def biased (x : Binary64) : Nat := x.word / leadingBit % (lastExponent + 1)

def fraction (x : Binary64) : Nat := x.word % leadingBit

def isFinite (x : Binary64) : Bool := x.biased ≠ lastExponent

def isNaN (x : Binary64) : Bool := x.biased = lastExponent && x.fraction ≠ 0

/-- All significant bits; only the smallest numbers lack the leading one. -/
def significand (x : Binary64) : Nat :=
  if x.biased = 0 then x.fraction else leadingBit + x.fraction

def scale (x : Binary64) : Nat := x.biased - 1

/-- Size of a finite number in units of `2 ^ -1074`. -/
def magnitude (x : Binary64) : Nat := x.significand * Nat.pow 2 x.scale

/-- How many units of `2 ^ -1074` make one. -/
def one : Nat := Nat.pow 2 1074

def isZero (x : Binary64) : Bool := x.isFinite && x.significand = 0

def isWhole (x : Binary64) : Bool := x.isFinite && x.magnitude % one = 0

def truncate (x : Binary64) : Int :=
  if x.negative then -(x.magnitude / one : Nat) else (x.magnitude / one : Nat)

/-- The double whose word is `w`, under a sign. -/
def ofWord (negative : Bool) (w : Nat) : Binary64 :=
  ⟨UInt64.ofNat (if negative then signBit + w else w)⟩

/-- `num / den` rounded to a natural number, a tie to the even one. -/
def roundEven (num den : Nat) : Nat :=
  let quotient := num / den
  let twice := 2 * (num % den)
  if den < twice ∨ (twice = den ∧ quotient % 2 = 1) then quotient + 1 else quotient

/-- The double nearest to the fraction `num / den`, or nothing when it is too large.
A significand rounded up to `2 ^ 53` carries into the exponent by plain addition. -/
def nearest (negative : Bool) (num den : Nat) : Option Binary64 :=
  let units := num * one
  let scale := (units / den).log2 - 52
  let word := scale * leadingBit + roundEven units (den * Nat.pow 2 scale)
  if word < lastExponent * leadingBit then some (ofWord negative word) else none

def zero (negative : Bool) : Binary64 := ofWord negative 0

def infinity (negative : Bool) : Binary64 := ofWord negative (lastExponent * leadingBit)

def ofInt (n : Int) : Binary64 :=
  (nearest (n < 0) n.natAbs 1).getD (infinity (n < 0))

def signed (negative : Bool) (x : Binary64) : Binary64 := ofWord negative x.word

/-- The product of two finite numbers without a sign, or nothing when it is too large. -/
def times (x y : Binary64) : Option Binary64 :=
  nearest false (x.magnitude * y.magnitude) (one * one)

def dividedBy (x y : Binary64) : Option Binary64 := nearest false x.magnitude y.magnitude

/-- The largest exponent with a power of ten among the doubles. -/
def powerLimit : Nat := 308

def powerOfTen (exponent : Nat) : Option Binary64 := nearest false (Nat.pow 10 exponent) 1

def scaleUp (x : Binary64) (exponent : Nat) : Option Binary64 :=
  if exponent ≤ powerLimit then powerOfTen exponent >>= x.times else none

/-- Divides by a power of ten, at first by some powers that are as large as possible, unless the
number has vanished before. -/
def scaleDown : (steps : Nat) → (x : Binary64) → (exponent : Nat) → Option Binary64
  | 0, x, exponent => powerOfTen exponent >>= x.dividedBy
  | steps + 1, x, exponent =>
    if x.isZero then some x
    else do
      let y ← x.dividedBy (← powerOfTen powerLimit)
      scaleDown steps y (exponent - powerLimit)

def scaleBy (x : Binary64) : Int → Option Binary64
  | .ofNat exponent => x.scaleUp exponent
  | .negSucc exponent => scaleDown (exponent / powerLimit) x (exponent + 1)

/-- The double for `significand * 10 ^ exponent`, or nothing when it is too large. The significand
is rounded first, then what it is multiplied with or divided by, then the result, so that it need
not be the nearest one. -/
def ofParts (negative : Bool) (significand : Nat) (exponent : Int) : Option Binary64 :=
  if significand = 0 then some (zero negative)
  else do
    let x ← nearest false significand 1
    return (← x.scaleBy exponent).signed negative

end Binary64
end Screenwright
