namespace Screenwright.Text

/-- The bytes that may follow a leading byte, position by position, with the bits that the
leading byte itself contributes. -/
def continuations (lead : Nat) : Option (Nat × List (Nat × Nat)) :=
  let any := (0x80, 0xBF)
  if lead < 0x80 then some (lead, [])
  else if 0xC2 ≤ lead ∧ lead ≤ 0xDF then some (lead - 0xC0, [any])
  else if lead = 0xE0 then some (0, [(0xA0, 0xBF), any])
  else if lead = 0xED then some (lead - 0xE0, [(0x80, 0x9F), any])
  else if 0xE1 ≤ lead ∧ lead ≤ 0xEF then some (lead - 0xE0, [any, any])
  else if lead = 0xF0 then some (0, [(0x90, 0xBF), any, any])
  else if 0xF1 ≤ lead ∧ lead ≤ 0xF3 then some (lead - 0xF0, [any, any, any])
  else if lead = 0xF4 then some (4, [(0x80, 0x8F), any, any])
  else none

def replacement : Char := '\ufffd'

/-- Takes the bytes that a character still needs; gives the character, or the replacement
character when one is missing, and the number of bytes taken. -/
def takeContinuations (code taken : Nat) : List (Nat × Nat) → List UInt8 → Char × Nat
  | [], _ => (Char.ofNat code, taken)
  | _ :: _, [] => (replacement, taken)
  | (low, high) :: ranges, b :: bytes =>
    if low ≤ b.toNat ∧ b.toNat ≤ high then
      takeContinuations (code * 64 + (b.toNat - 0x80)) (taken + 1) ranges bytes
    else (replacement, taken)

/-- The first character of some bytes, and how many bytes behind the first it takes. -/
def firstChar (lead : UInt8) (bytes : List UInt8) : Char × Nat :=
  match continuations lead.toNat with
  | some (code, ranges) => takeContinuations code 0 ranges bytes
  | none => (replacement, 0)

/-- All characters of some bytes. Every longest broken beginning of a character, and every byte that
begins none, reads as the replacement character. -/
def decodeLossy : List UInt8 → List Char
  | [] => []
  | b :: bytes => (firstChar b bytes).1 :: decodeLossy (bytes.drop (firstChar b bytes).2)
termination_by bytes => bytes.length
decreasing_by simp only [List.length_drop, List.length_cons]; omega

def bytesOf (s : String) : List UInt8 := s.toUTF8.toList

def shown (bytes : List UInt8) : String := String.ofList (decodeLossy bytes)

end Screenwright.Text
