import Screenwright.Json.Fault
import Screenwright.Text.Digits

namespace Screenwright.Json
open Text

structure Numeral where
  negative : Bool
  whole : List Char
  /-- Digits behind the point, if there is one. -/
  fraction : Option (List Char)
  /-- Sign and digits of the exponent, if there is one. -/
  exponent : Option (Bool × List Char)

namespace Numeral

/-- The largest exponent that is still computed with. -/
def exponentLimit : Nat := 2147483647

/-- Length of the shortest beginning of some digits whose value passes the limit. -/
def overflowAt (ds : List Char) : Option Nat :=
  ((List.range (ds.length + 1)).find? fun k => exponentLimit < decimalValue (ds.take k))

/-- Goes on with a number by digits as long as it stays below `2 ^ 64`, and gives the digits from
the first one on that would take it further. -/
def absorb (n : Nat) : List Char → Nat × List Char
  | [] => (n, [])
  | d :: ds =>
    if 10 * n + digitValue d < UInt64.size then absorb (10 * n + digitValue d) ds else (n, d :: ds)

/-- A number that is not whole, read in front of `rest`. -/
def float (negative : Bool) (significand : Nat) (exponent : Int) (rest : List Char) :
    Except Fault Number :=
  match Binary64.ofParts negative significand exponent with
  | some x => .ok (.float x)
  | none => .error (.here .numberRange rest)

/-- A significand under the exponent of a literal in front of `rest`. One beyond the limit is a
fault at the digit that passes it, unless it only makes the number vanish. -/
def scaled (negative : Bool) (significand : Nat) (start : Int)
    (exponent : Option (Bool × List Char)) (rest : List Char) : Except Fault Number :=
  match exponent with
  | none => float negative significand start rest
  | some (down, ds) =>
    match overflowAt ds with
    | some k =>
      if significand ≠ 0 ∧ !down then
        .error ⟨.numberRange, byteLength rest + (ds.length - k)⟩
      else float negative 0 0 rest
    | none =>
      let e : Int := decimalValue ds
      float negative significand (if down then start - e else start + e) rest

/-- The value of a literal in front of `rest`. Whole numbers of 64 bits stay exact, minus zero does
not count as whole. Of other numbers, the significand has the digits that 64 bits hold. -/
def value (numeral : Numeral) (rest : List Char) : Except Fault Number :=
  let (whole, beyond) := absorb 0 numeral.whole
  match numeral.fraction, numeral.exponent, beyond with
  | none, none, [] =>
    if numeral.negative then
      if whole = 0 ∨ 0x8000000000000000 < whole then float true whole 0 rest
      else .ok (.int (-(whole : Int)))
    else .ok (.int whole)
  | fraction, exponent, beyond =>
    let places := fraction.getD []
    let (significand, left) := absorb whole places
    scaled numeral.negative significand (beyond.length + left.length - places.length) exponent rest

/-- The outcome of cutting off a literal: the literal with the text behind it, or the
faults that a reader of the value and one that skips it meet. -/
abbrev Scan := Except (Fault × Fault) (Numeral × List Char)

def scanExponent (numeral : Numeral) : List Char → Scan
  | c :: rest =>
    if c = 'e' ∨ c = 'E' then
      let down := rest.head? = some '-'
      let digits := if down ∨ rest.head? = some '+' then rest.drop 1 else rest
      match digits with
      | [] => .error (.atEnd .endOfValue, .atEnd .badNumber)
      | d :: _ =>
        if isDigit d then
          .ok (⟨numeral.negative, numeral.whole, numeral.fraction,
            some (down, digits.takeWhile isDigit)⟩, digits.dropWhile isDigit)
        else .error (.past .badNumber digits, .past .badNumber digits)
    else .ok (numeral, c :: rest)
  | [] => .ok (numeral, [])

def scanFraction (numeral : Numeral) : List Char → Scan
  | '.' :: rest =>
    match rest with
    | [] => .error (.atEnd .endOfValue, .atEnd .badNumber)
    | d :: _ =>
      if isDigit d then
        scanExponent ⟨numeral.negative, numeral.whole, some (rest.takeWhile isDigit), none⟩
          (rest.dropWhile isDigit)
      else .error (.past .badNumber rest, .past .badNumber rest)
  | rest => scanExponent numeral rest

/-- Cuts off the digits in front of the point; a leading zero stands alone. -/
def scanWhole (negative : Bool) : List Char → Scan
  | [] => .error (.atEnd .endOfValue, .atEnd .badNumber)
  | d :: rest =>
    if d = '0' then
      if rest.head?.any isDigit then .error (.past .badNumber rest, .past .badNumber rest)
      else scanFraction ⟨negative, ['0'], none, none⟩ rest
    else if isDigit d then
      scanFraction ⟨negative, (d :: rest).takeWhile isDigit, none, none⟩
        ((d :: rest).dropWhile isDigit)
    else .error (.past .badNumber (d :: rest), .past .badNumber (d :: rest))

/-- Cuts a literal off a text that begins with a digit or a minus sign. -/
def scan : List Char → Scan
  | '-' :: rest => scanWhole true rest
  | rest => scanWhole false rest

end Numeral
end Screenwright.Json
