namespace Screenwright.Text

/-- Whether a number lies in one of the ranges, first and last included. -/
def within (ranges : List (Nat × Nat)) (n : Nat) : Bool :=
  ranges.any fun r => r.1 ≤ n && n ≤ r.2

end Screenwright.Text
