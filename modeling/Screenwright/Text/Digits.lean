namespace Screenwright.Text

def isDigit (c : Char) : Bool := '0' ≤ c && c ≤ '9'

/-- A test that holds of one character only tells two apart. -/
theorem ne_of_test {p : Char → Bool} {c d : Char} (hc : p c = true) (hd : p d = false) : c ≠ d :=
  ne_of_apply_ne p (by rw [hc, hd]; exact Bool.noConfusion)

def digitValue (c : Char) : Nat := c.toNat - '0'.toNat

def decimalValue (ds : List Char) : Nat := ds.foldl (fun n d => 10 * n + digitValue d) 0

/-- Value of a hexadecimal digit in either case. -/
def hexValue? (c : Char) : Option Nat :=
  if isDigit c then some (digitValue c)
  else if 'a' ≤ c ∧ c ≤ 'f' then some (c.toNat - 'a'.toNat + 10)
  else if 'A' ≤ c ∧ c ≤ 'F' then some (c.toNat - 'A'.toNat + 10)
  else none

def hexDigit (n : Nat) : Char := (Nat.digitChar n).toUpper

/-- The last `width` hexadecimal digits of a number, in upper case. -/
def hexFixed : (width : Nat) → Nat → List Char
  | 0, _ => []
  | w + 1, n => hexFixed w (n / 16) ++ [hexDigit (n % 16)]

end Screenwright.Text
