import Screenwright.Proofs.Addresses

namespace Screenwright.Proofs.Decoding
open Text Addresses

/-- A byte that a character may go on with adds its six bits. -/
theorem takeContinuations_cons {code taken low high b : Nat} {ranges : List (Nat × Nat)}
    (hb : b < 64) (hlow : low ≤ b + 128) (hhigh : b + 128 ≤ high) (bytes : List UInt8) :
    takeContinuations code taken ((low, high) :: ranges) (UInt8.ofNat (b + 128) :: bytes) =
      takeContinuations (code * 64 + b) (taken + 1) ranges bytes := by
  rw [takeContinuations, UInt8.toNat_ofNat_of_lt' (show _ < 256 by omega),
    if_pos ⟨hlow, hhigh⟩, Nat.add_sub_cancel]

theorem firstChar_one {v : Nat} (h : v ≤ 127) (rest : List UInt8) :
    firstChar (UInt8.ofNat v) rest = (Char.ofNat v, 0) := by
  have hc : continuations v = some (v, []) := by
    unfold continuations
    rw [if_pos (by omega)]
  rw [firstChar, UInt8.toNat_ofNat_of_lt' (show _ < 256 by omega), hc]
  rfl

theorem firstChar_two {v : Nat} (h : 128 ≤ v) (h' : v ≤ 2047) (rest : List UInt8) :
    firstChar (UInt8.ofNat (v / 64 % 32 + 192)) (UInt8.ofNat (v % 64 + 128) :: rest) =
      (Char.ofNat v, 1) := by
  have hc : continuations (v / 64 % 32 + 192) = some (v / 64, [(0x80, 0xBF)]) := by
    have hcode : v / 64 % 32 + 192 - 0xC0 = v / 64 := by omega
    unfold continuations
    rw [if_neg (by omega), if_pos (by omega), hcode]
  rw [firstChar, UInt8.toNat_ofNat_of_lt' (show _ < 256 by omega), hc]
  dsimp only
  rw [takeContinuations_cons (by omega) (by omega) (by omega), takeContinuations]
  congr 2
  omega

theorem firstChar_three {v : Nat} (h : 2048 ≤ v) (h' : v ≤ 65535)
    (hv : v < 0xD800 ∨ 0xDFFF < v) (rest : List UInt8) :
    firstChar (UInt8.ofNat (v / 4096 % 16 + 224))
        (UInt8.ofNat (v / 64 % 64 + 128) :: UInt8.ofNat (v % 64 + 128) :: rest) =
      (Char.ofNat v, 2) := by
  -- The first byte behind the leading one is confined where a shorter form or a surrogate begins.
  obtain ⟨low, high, hc, hlow, hhigh⟩ : ∃ low high,
      continuations (v / 4096 % 16 + 224) = some (v / 4096, [(low, high), (0x80, 0xBF)]) ∧
        low ≤ v / 64 % 64 + 128 ∧ v / 64 % 64 + 128 ≤ high := by
    unfold continuations
    rw [if_neg (by omega), if_neg (by omega)]
    by_cases h0 : v / 4096 = 0
    · rw [if_pos (by omega), h0]
      exact ⟨_, _, rfl, by omega, by omega⟩
    by_cases hd : v / 4096 = 13
    · rw [if_neg (by omega), if_pos (by omega), hd]
      exact ⟨_, _, rfl, by omega, by omega⟩
    · have hcode : v / 4096 % 16 + 224 - 0xE0 = v / 4096 := by omega
      rw [if_neg (by omega), if_neg (by omega), if_pos (by omega), hcode]
      exact ⟨_, _, rfl, by omega, by omega⟩
  rw [firstChar, UInt8.toNat_ofNat_of_lt' (show _ < 256 by omega), hc]
  dsimp only
  rw [takeContinuations_cons (by omega) hlow hhigh,
    takeContinuations_cons (by omega) (by omega) (by omega), takeContinuations]
  congr 2
  omega

theorem firstChar_four {v : Nat} (h : 65536 ≤ v) (h' : v < 0x110000) (rest : List UInt8) :
    firstChar (UInt8.ofNat (v / 262144 % 8 + 240))
        (UInt8.ofNat (v / 4096 % 64 + 128) :: UInt8.ofNat (v / 64 % 64 + 128) ::
          UInt8.ofNat (v % 64 + 128) :: rest) =
      (Char.ofNat v, 3) := by
  obtain ⟨low, high, hc, hlow, hhigh⟩ : ∃ low high,
      continuations (v / 262144 % 8 + 240) =
          some (v / 262144, [(low, high), (0x80, 0xBF), (0x80, 0xBF)]) ∧
        low ≤ v / 4096 % 64 + 128 ∧ v / 4096 % 64 + 128 ≤ high := by
    unfold continuations
    rw [if_neg (by omega), if_neg (by omega), if_neg (by omega), if_neg (by omega),
      if_neg (by omega)]
    by_cases h0 : v / 262144 = 0
    · rw [if_pos (by omega), h0]
      exact ⟨_, _, rfl, by omega, by omega⟩
    by_cases h4 : v / 262144 = 4
    · rw [if_neg (by omega), if_neg (by omega), if_pos (by omega), h4]
      exact ⟨_, _, rfl, by omega, by omega⟩
    · have hcode : v / 262144 % 8 + 240 - 0xF0 = v / 262144 := by omega
      rw [if_neg (by omega), if_pos (by omega), hcode]
      exact ⟨_, _, rfl, by omega, by omega⟩
  rw [firstChar, UInt8.toNat_ofNat_of_lt' (show _ < 256 by omega), hc]
  dsimp only
  rw [takeContinuations_cons (by omega) hlow hhigh,
    takeContinuations_cons (by omega) (by omega) (by omega),
    takeContinuations_cons (by omega) (by omega) (by omega), takeContinuations]
  congr 2
  omega

theorem decodeLossy_char (c : Char) (rest : List UInt8) :
    decodeLossy (String.utf8EncodeChar c ++ rest) = c :: decodeLossy rest := by
  have hvalid : c.toNat < 0xD800 ∨ 0xDFFF < c.toNat ∧ c.toNat < 0x110000 := c.valid
  have hc : Char.ofNat c.toNat = c := Char.ofNat_toNat c
  have hv : c.val.toNat = c.toNat := rfl
  simp only [String.utf8EncodeChar, hv]
  split
  · next h =>
    rw [List.singleton_append, decodeLossy, firstChar_one h, hc]
    rfl
  split
  · next h h' =>
    rw [List.cons_append, List.singleton_append, decodeLossy, firstChar_two (by omega) h', hc]
    rfl
  split
  · next h h' =>
    simp only [List.cons_append, List.nil_append]
    rw [decodeLossy, firstChar_three (by omega) h' (by omega), hc]
    rfl
  · next h =>
    simp only [List.cons_append, List.nil_append]
    rw [decodeLossy, firstChar_four (by omega) (by omega), hc]
    rfl

/-- Text is shown as it is. -/
theorem shown_bytesOf (s : String) : shown (bytesOf s) = s := by
  have hall (cs : List Char) : decodeLossy (cs.flatMap String.utf8EncodeChar) = cs := by
    induction cs with
    | nil => simp [decodeLossy]
    | cons c cs ih => rw [List.flatMap_cons, decodeLossy_char, ih]
  rw [shown, bytesOf_eq, hall, String.ofList_toList]

theorem bytesOf_inj {s t : String} (h : bytesOf s = bytesOf t) : s = t := by
  rw [← shown_bytesOf s, h, shown_bytesOf]

end Screenwright.Proofs.Decoding
