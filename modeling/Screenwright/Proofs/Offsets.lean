import Screenwright.Proofs.Addresses
import Screenwright.Text.Digits

namespace Screenwright.Proofs.Offsets
open Text Addresses

/-- What can go wrong with a text or a number. -/
inductive Slip where
  /-- An offset behind a text or within a character of it, or two offsets the wrong way round. -/
  | misplaced
  /-- A number that does not fit. -/
  | overflow
  /-- Digits that are no number. -/
  | unread
deriving DecidableEq

/-- The text from one offset in bytes up to another. -/
def cut (s : String) (low high : Nat) : Except Slip String :=
  if h : (String.Pos.Raw.mk low).IsValid s ∧ (String.Pos.Raw.mk high).IsValid s ∧ low ≤ high then
    .ok (s.extract ⟨_, h.1⟩ ⟨_, h.2.1⟩)
  else .error .misplaced

def held (low high n : Int) : Except Slip Int :=
  if low ≤ n ∧ n ≤ high then .ok n else .error .overflow

def byte : Int → Except Slip Int := held 0 255

/-- The smallest number of 64 bits, one of them for the sign. -/
def leastWord : Int := -0x8000000000000000

def greatestWord : Int := 0x7FFFFFFFFFFFFFFF

def word : Int → Except Slip Int := held leastWord greatestWord

def digitIn? (base : Nat) (c : Char) : Option Nat := (hexValue? c).filter (· < base)

def digits? (base : Nat) : List Char → Option Nat
  | [] => none
  | cs => cs.foldlM (fun n c => (digitIn? base c).map (base * n + ·)) 0

/-- The number of a range that a text is in some base: digits behind a plus sign, a minus sign if
there are negative numbers, or none. -/
def number? (base : Nat) (low high : Int) (s : String) : Option Int :=
  let n? : Option Int := match s.toList with
    | '+' :: cs => (digits? base cs).map Int.ofNat
    | '-' :: cs => if low < 0 then (digits? base cs).map fun n : Nat => -(n : Int) else none
    | cs => (digits? base cs).map Int.ofNat
  n?.filter fun n => low ≤ n ∧ n ≤ high

/-- The offset of the first character that a test holds of. -/
def offset? (p : Char → Bool) : List Char → Option Nat
  | [] => none
  | c :: cs => if p c then some 0 else (offset? p cs).map (c.utf8Size + ·)

/-- How many bytes characters take. -/
def size (cs : List Char) : Nat := (String.ofList cs).utf8ByteSize

variable {cs : List Char} {base : Nat}

theorem size_cons (c : Char) (cs : List Char) : size (c :: cs) = c.utf8Size + size cs := by
  rw [size, String.ofList_cons, String.utf8ByteSize_append, String.utf8ByteSize_singleton, size]

theorem size_append (cs ds : List Char) : size (cs ++ ds) = size cs + size ds := by
  rw [size, String.ofList_append, String.utf8ByteSize_append, size, size]

theorem utf8Size_of_lt {c : Char} (h : c.toNat < 128) : c.utf8Size = 1 :=
  Char.utf8Size_eq_one_iff.mpr (UInt32.le_iff_toNat_le.mpr (Nat.le_of_lt_succ h))

/-- Characters of one byte are as many as their bytes. -/
theorem size_eq_length (h : ∀ c ∈ cs, c.utf8Size = 1) : size cs = cs.length := by
  induction cs with
  | nil => rfl
  | cons c cs ih =>
    obtain ⟨hc, hcs⟩ := List.forall_mem_cons.mp h
    rw [size_cons, hc, ih hcs, List.length_cons, Nat.add_comm]

theorem cut_parts (front mid back : List Char) :
    cut (.ofList (front ++ mid ++ back)) (size front) (size (front ++ mid)) =
      .ok (.ofList mid) := by
  have hparts : String.ofList (front ++ mid ++ back) =
      String.ofList front ++ (String.ofList mid ++ String.ofList back) := by
    rw [List.append_assoc, String.ofList_append, String.ofList_append]
  have hsize := size_append front mid
  have hlow : (String.Pos.Raw.mk (size front)).IsValid (.ofList (front ++ mid ++ back)) :=
    String.Pos.Raw.isValid_iff_exists_append.mpr ⟨_, _, hparts, rfl⟩
  have hhigh : (String.Pos.Raw.mk (size (front ++ mid))).IsValid (.ofList (front ++ mid ++ back)) :=
    String.Pos.Raw.isValid_iff_exists_append.mpr ⟨_, _, String.ofList_append .., rfl⟩
  rw [cut, dif_pos ⟨hlow, hhigh, by omega⟩]
  refine congrArg Except.ok (String.toByteArray_inj.mp ?_)
  change (String.ofList (front ++ mid ++ back)).toByteArray.extract (size front)
    (size (front ++ mid)) = _
  have hbehind : ((String.ofList front).toByteArray ++ ((String.ofList mid).toByteArray ++
      (String.ofList back).toByteArray)).extract (size front + 0) (size front + size mid) =
      ((String.ofList mid).toByteArray ++ (String.ofList back).toByteArray).extract 0 (size mid) :=
    ByteArray.extract_append_size_add
  rw [hparts, String.toByteArray_append, String.toByteArray_append, hsize]
  exact hbehind.trans (ByteArray.extract_append_eq_left rfl)

theorem cut_ascii (front mid back : List Char) (h : ∀ c ∈ front ++ mid, c.utf8Size = 1) :
    cut (.ofList (front ++ mid ++ back)) front.length (front.length + mid.length) =
      .ok (.ofList mid) := by
  have hfront : ∀ c ∈ front, c.utf8Size = 1 := fun c hc => h c (List.mem_append_left _ hc)
  rw [← List.length_append, ← size_eq_length hfront, ← size_eq_length h, cut_parts]

theorem cut_tail (c : Char) (cs : List Char) :
    cut (.ofList (c :: cs)) c.utf8Size (String.ofList (c :: cs)).utf8ByteSize =
      .ok (.ofList cs) := by
  have hsize : size [c] = c.utf8Size := by rw [size_cons]; rfl
  have hparts := cut_parts [c] cs []
  rw [List.append_nil, hsize] at hparts
  exact hparts

theorem offset?_eq (p : Char → Bool) (cs : List Char) :
    (offset? p cs).getD (size cs) = size (cs.takeWhile (!p ·)) := by
  induction cs with
  | nil => rfl
  | cons c cs ih =>
    rw [offset?, List.takeWhile_cons]
    cases hc : p c with
    | true => rfl
    | false =>
      simp only [Bool.not_false, if_true, Bool.false_eq_true, if_false, size_cons, ← ih]
      cases offset? p cs <;> rfl

/-- What is in front of the first character that a test holds of is cut off there. -/
theorem cut_offset (p : Char → Bool) (cs : List Char) :
    cut (.ofList cs) 0 ((offset? p cs).getD (String.ofList cs).utf8ByteSize) =
      .ok (.ofList (cs.takeWhile (!p ·))) := by
  have hstop := offset?_eq p cs
  have hparts := cut_parts [] (cs.takeWhile (!p ·)) (cs.dropWhile (!p ·))
  rw [List.nil_append, List.takeWhile_append_dropWhile, ← hstop] at hparts
  exact hparts

def numeral (base : Nat) (value : Char → Nat) (cs : List Char) : Nat :=
  cs.foldl (fun n c => base * n + value c) 0

theorem digits?_eq {value : Char → Nat} (h : ∀ c ∈ cs, digitIn? base c = some (value c))
    (hne : cs ≠ []) : digits? base cs = some (numeral base value cs) := by
  have hfold (n : Nat) : cs.foldlM (fun n c => (digitIn? base c).map (base * n + ·)) n =
      some (cs.foldl (fun n c => base * n + value c) n) := by
    clear hne
    induction cs generalizing n with
    | nil => rfl
    | cons c cs ih =>
      obtain ⟨hc, hcs⟩ := List.forall_mem_cons.mp h
      rw [List.foldlM_cons, hc]
      exact ih hcs _
  rw [digits?, hfold]
  · rfl
  · exact hne

/-- Digits without a sign are read if there are any and their number is of the range. -/
theorem number?_eq {low high : Int} {value : Char → Nat}
    (h : ∀ c ∈ cs, digitIn? base c = some (value c)) :
    number? base low high (.ofList cs) =
      if cs ≠ [] ∧ low ≤ numeral base value cs ∧ numeral base value cs ≤ high then
        some (numeral base value cs : Int)
      else none := by
  rw [number?, String.toList_ofList]
  cases hcs : cs with
  | nil => rfl
  | cons c rest =>
    have hread := digits?_eq h (by simp [hcs])
    rw [hcs] at hread h
    have hc := h c List.mem_cons_self
    split
    · next heq =>
      cases heq
      cases hc
    · next heq =>
      cases heq
      cases hc
    · rw [hread]
      simp [Option.filter]

/-- A character of several bytes does not begin with the byte of another one. -/
theorem head?_utf8EncodeChar {c d : Char} (hd : d.toNat < 128) :
    (String.utf8EncodeChar c).head? = some (UInt8.ofNat d.toNat) ↔ c = d := by
  have hval : c.val.toNat = c.toNat := rfl
  have hbyte (m n : Nat) : some (UInt8.ofNat m) = some (UInt8.ofNat n) ↔ m % 256 = n % 256 := by
    rw [Option.some_inj, ← UInt8.toNat_inj, UInt8.toNat_ofNat', UInt8.toNat_ofNat']
  rw [← Char.toNat_inj, String.utf8EncodeChar, hval]
  -- By the number of bytes: the first one is the character itself or at least 192.
  split_ifs
  all_goals
    rw [List.head?_cons, hbyte]
    omega

theorem head?_bytesOf (s : String) {c : Char} (hc : c.toNat < 128) :
    (bytesOf s).head? = some (UInt8.ofNat c.toNat) ↔ s.toList.head? = some c := by
  rw [bytesOf_eq]
  cases s.toList with
  | nil => simp
  | cons d cs =>
    rw [List.flatMap_cons, List.head?_append_of_ne_nil _ String.utf8EncodeChar_ne_nil,
      head?_utf8EncodeChar hc, List.head?_cons, Option.some_inj]

/-- The byte of a character in front of a text, and the text behind that byte. -/
theorem byte_in_front (c : Char) (cs : List Char) (hc : c.toNat < 128) :
    (bytesOf (.ofList (c :: cs))).head? = some (UInt8.ofNat c.toNat) ∧
      cut (.ofList (c :: cs)) 1 (String.ofList (c :: cs)).utf8ByteSize = .ok (.ofList cs) := by
  have hcut := cut_tail c cs
  rw [utf8Size_of_lt hc] at hcut
  refine ⟨(head?_bytesOf _ hc).mpr ?_, hcut⟩
  rw [String.toList_ofList, List.head?_cons]

end Screenwright.Proofs.Offsets
