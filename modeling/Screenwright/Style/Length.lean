import Screenwright.Design.PropValue
import Screenwright.Text.Blank

namespace Screenwright.Style
open Design

/-- The largest integer that a length may start with. -/
def maxInteger : Nat := 0x7FFFFFFFFFFFFFFF

def leadingDigits (cs : List Char) : Option Nat :=
  match cs.takeWhile Text.isDigit with
  | [] => none
  | ds => if Text.decimalValue ds ≤ maxInteger then some (Text.decimalValue ds) else none

/-- The integer that a text starts with, after blanks and at most one sign. -/
def leadingInt (s : String) : Option Int :=
  match Text.stripWhile Text.isBlank s.toList with
  | '-' :: cs => (leadingDigits cs).map fun n => -(n : Int)
  | '+' :: cs => (leadingDigits cs).map fun n => (n : Int)
  | cs => (leadingDigits cs).map fun n => (n : Int)

/-- A finite number counts as it is. -/
def lengthOf (value : Option PropValue) (fallback : Binary64) : Binary64 :=
  match value with
  | some (.number x) => if x.isFinite then x else fallback
  | some (.text s) => ((leadingInt s).map Binary64.ofInt).getD fallback
  | _ => fallback

def zeroLength : Binary64 := .zero false

/-- The keyword `normal` is no extra space. -/
def letterSpacingOf (value : Option PropValue) : Binary64 :=
  match value with
  | some (.text s) =>
    if Text.trim s = "normal" then zeroLength else lengthOf value zeroLength
  | _ => lengthOf value zeroLength

inductive Dimension where
  | unconstrained
  | fill
  | fixed (x : Binary64)
deriving DecidableEq

def Dimension.ofText (s : String) : Dimension :=
  let s := Text.trim s
  if s = "" ∨ s = "auto" then .unconstrained
  else if s = "100%" then .fill
  else match leadingInt s with
    | some n => .fixed (.ofInt n)
    | none => .unconstrained

def Dimension.of (value : Option PropValue) : Dimension :=
  match value with
  | some (.number x) => if x.isFinite then .fixed x else .unconstrained
  | some (.text s) => .ofText s
  | _ => .unconstrained

end Screenwright.Style
