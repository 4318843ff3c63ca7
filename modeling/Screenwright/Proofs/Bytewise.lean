import Screenwright.Proofs.Channels
import Screenwright.Proofs.Integers
import Screenwright.Proofs.Offsets
import Screenwright.Style.Insets

namespace Screenwright.Proofs.Bytewise
open Design Style Color Text Colors Channels Integers Offsets

/-- The number of the hexadecimal digits from one offset up to another. -/
def hexNumber (s : String) (low high : Nat) : Except Slip Int := do
  match number? 16 0 255 (← cut s low high) with
  | some n => return n
  | none => throw .unread

def octet (n : Int) : UInt8 := UInt8.ofNat n.toNat

/-- The channel of the hexadecimal digits from one offset up to another. -/
def channelAt (s : String) (low high : Nat) : Except Slip UInt8 := do
  return octet (← hexNumber s low high)

/-- The channel of a hexadecimal digit that stands for two of the same. -/
def twiceAt (s : String) (i : Nat) : Except Slip UInt8 := do
  return octet (← byte (17 * (← hexNumber s i (i + 1))))

def digitsColor (hex : String) : Except Slip (Option Color) := do
  match hex.utf8ByteSize with
  | 3 => return some (opaqueOf (← twiceAt hex 0) (← twiceAt hex 1) (← twiceAt hex 2))
  | 6 => return some (opaqueOf (← channelAt hex 0 2) (← channelAt hex 2 4) (← channelAt hex 4 6))
  | 8 =>
    return some ⟨← channelAt hex 0 2, ← channelAt hex 2 4, ← channelAt hex 4 6,
      ← channelAt hex 6 8⟩
  | _ => return none

/-- The color of a text behind its hash signs. -/
def hexColor (s : String) : Except Slip (Option Color) :=
  let hex := String.ofList (s.toList.dropWhile (· = '#'))
  if hex.toList.all isHexDigit then digitsColor hex else return none

/-- The sign that a text begins with, by its first byte, and what is behind it. -/
def signOf (s : String) : Except Slip (Int × String) := do
  match (bytesOf s).head? with
  | some 0x2D => return (-1, ← cut s 1 s.utf8ByteSize)
  | some 0x2B => return (1, ← cut s 1 s.utf8ByteSize)
  | _ => return (1, s)

/-- The integer of the decimal digits that a text starts with, with a sign. -/
def signedWord (sign : Int) (digits : String) : Except Slip (Option Int) := do
  let stop := (offset? (!isDigit ·) digits.toList).getD digits.utf8ByteSize
  match number? 10 leastWord greatestWord (← cut digits 0 stop) with
  | some n => return some (← word (sign * n))
  | none => return none

def leadingWord (s : String) : Except Slip (Option Int) := do
  let (sign, digits) ← signOf (trim s)
  signedWord sign digits

def colorOf (token : Option String) : Except Slip ColorValue := do
  let token := trim (token.getD "")
  if token = "" ∨ token = "transparent" ∨ token = "none" then return .transparent
  else if token.toList.head? = some '#' then
    match ← hexColor token with
    | some c => return .solid c
    | none => return .fallback
  else return .fallback

def lengthOf (value : Option PropValue) (fallback : Binary64) : Except Slip Binary64 := do
  match value with
  | some (.number x) => return if x.isFinite then x else fallback
  | some (.text s) => return ((← leadingWord s).map Binary64.ofInt).getD fallback
  | _ => return fallback

def letterSpacingOf (value : Option PropValue) : Except Slip Binary64 :=
  match value with
  | some (.text s) =>
    if trim s = "normal" then return zeroLength else lengthOf value zeroLength
  | _ => lengthOf value zeroLength

def sizeOfText (s : String) : Except Slip Dimension := do
  let s := trim s
  if s = "" ∨ s = "auto" then return .unconstrained
  else if s = "100%" then return .fill
  else match ← leadingWord s with
    | some n => return .fixed (.ofInt n)
    | none => return .unconstrained

def sizeOf (value : Option PropValue) : Except Slip Dimension :=
  match value with
  | some (.number x) => return if x.isFinite then .fixed x else .unconstrained
  | some (.text s) => sizeOfText s
  | _ => return .unconstrained

def insetsOfText (s : String) : Except Slip Insets := do
  match ← (words s).mapM fun w => do return (← leadingWord w).getD 0 with
  | [all] => return .uniform all
  | [vertical, horizontal] => return .symmetric vertical horizontal
  | [top, right, bottom, left] => return .each left top right bottom
  | _ => return .zero

def insetsOf (value : Option PropValue) : Except Slip Insets := do
  match value with
  | some (.number x) =>
    if x.isFinite then return .uniform (← word (Insets.clamp x.truncate)) else return .zero
  | some (.text s) => insetsOfText s
  | _ => return .zero

theorem digitIn?_of_isHexDigit {c : Char} (h : isHexDigit c = true) :
    digitIn? 16 c = some (nibble c) := by
  obtain ⟨v, hv⟩ := Option.isSome_iff_exists.mp (isSome_hexValue? c ▸ h)
  have hlow := (hexDigit_nibble h).1
  simp only [nibble, hv, Option.getD_some] at hlow ⊢
  simp [digitIn?, hv, hlow]

theorem digitIn?_of_isDigit {c : Char} (h : isDigit c = true) :
    digitIn? 10 c = some (digitValue c) := by
  have hc := Char.isDigit_iff_toNat.mp h
  have hlow : digitValue c < 10 := by
    simp only [digitValue, Char.reduceToNat] at hc ⊢
    omega
  simp [digitIn?, hexValue?, h, hlow]

theorem utf8Size_of_isHexDigit {c : Char} (h : isHexDigit c = true) : c.utf8Size = 1 :=
  utf8Size_of_lt (Nat.lt_trans (toNat_of_isHexDigit h).2 (by decide))

theorem packed_le {ds : List Char} (h : ∀ c ∈ ds, isHexDigit c = true) (htwo : ds.length ≤ 2) :
    packed (ds.map nibble) ≤ 255 := by
  have hvalues : ∀ c ∈ ds, nibble c < 16 := fun c hc => (hexDigit_nibble (h c hc)).1
  rcases ds with _ | ⟨a, _ | ⟨b, _ | ⟨c, ds⟩⟩⟩
  · decide
  · have ha := hvalues a (by simp)
    simp only [packed, List.map_cons, List.map_nil, List.foldl_cons, List.foldl_nil]
    omega
  · have ha := hvalues a (by simp)
    have hb := hvalues b (by simp)
    simp only [packed, List.map_cons, List.map_nil, List.foldl_cons, List.foldl_nil]
    omega
  · simp at htwo

theorem hexNumber_parts (front mid back : List Char)
    (h : ∀ c ∈ front ++ mid ++ back, isHexDigit c = true) (hne : mid ≠ [])
    (htwo : mid.length ≤ 2) :
    hexNumber (.ofList (front ++ mid ++ back)) front.length (front.length + mid.length) =
      .ok (packed (mid.map nibble) : Nat) := by
  have hbytes : ∀ c ∈ front ++ mid, c.utf8Size = 1 :=
    fun c hc => utf8Size_of_isHexDigit (h c (List.mem_append_left _ hc))
  have hmid : ∀ c ∈ mid, isHexDigit c = true :=
    fun c hc => h c (List.mem_append_left _ (List.mem_append_right _ hc))
  have hpacked : numeral 16 nibble mid = packed (mid.map nibble) := (List.foldl_map ..).symm
  have hbyte := packed_le hmid htwo
  rw [hexNumber, cut_ascii front mid back hbytes]
  change (match number? 16 0 255 (String.ofList mid) with
    | some n => _
    | none => _) = _
  rw [number?_eq fun c hc => digitIn?_of_isHexDigit (hmid c hc), hpacked,
    if_pos ⟨hne, by omega, by omega⟩]
  rfl

theorem channelAt_pair (front : List Char) (high low : Char) (back : List Char)
    (h : ∀ c ∈ front ++ [high, low] ++ back, isHexDigit c = true) :
    channelAt (.ofList (front ++ [high, low] ++ back)) front.length (front.length + 2) =
      .ok (channel (nibble high) (nibble low)) := by
  have hpacked : packed ([high, low].map nibble) = 16 * nibble high + nibble low := by
    simp [packed]
  have hread : hexNumber (.ofList (front ++ [high, low] ++ back)) front.length
      (front.length + 2) = _ :=
    hexNumber_parts front _ back h (List.cons_ne_nil _ _) (Nat.le_refl 2)
  rw [channelAt, hread, hpacked]
  rfl

/-- One digit, taken twice, is a channel, which has eight bits at most. -/
theorem twiceAt_single (front : List Char) (c : Char) (back : List Char)
    (h : ∀ d ∈ front ++ [c] ++ back, isHexDigit d = true) :
    twiceAt (.ofList (front ++ [c] ++ back)) front.length =
      .ok (channel (nibble c) (nibble c)) := by
  have hlow := (hexDigit_nibble (h c (by simp))).1
  have hpacked : packed ([c].map nibble) = nibble c := by simp [packed]
  have hbyte : byte (17 * (nibble c : Int)) = .ok (17 * (nibble c : Int)) := if_pos (by omega)
  have htwice : 16 * nibble c + nibble c = 17 * nibble c := by omega
  have hread : hexNumber (.ofList (front ++ [c] ++ back)) front.length (front.length + 1) = _ :=
    hexNumber_parts front _ back h (List.cons_ne_nil _ _) (Nat.le_succ 1)
  rw [twiceAt, hread, hpacked, channel, htwice]
  change (do return octet (← byte (17 * (nibble c : Int)))) = _
  rw [hbyte]
  rfl

/-- Digits that have been checked make the color that their values make. -/
theorem hexColor_eq (s : String) : hexColor s = .ok (ofHex? s) := by
  rw [hexColor, String.toList_ofList]
  unfold ofHex?
  rw [mapM_hexValue?]
  generalize s.toList.dropWhile (· = '#') = ds
  by_cases hall : ds.all isHexDigit = true
  case neg =>
    rw [if_neg hall, if_neg hall]
    rfl
  rw [if_pos hall, if_pos hall]
  have h : ∀ c ∈ ds, isHexDigit c = true := List.all_eq_true.mp hall
  -- Each digit is one byte, so that offsets of bytes count digits.
  have hsize : (String.ofList ds).utf8ByteSize = ds.length :=
    size_eq_length fun c hc => utf8Size_of_isHexDigit (h c hc)
  rw [digitsColor, hsize]
  match ds with
  | [r, g, b] =>
    have hr : twiceAt (.ofList [r, g, b]) 0 = _ := twiceAt_single [] r [g, b] h
    have hg : twiceAt (.ofList [r, g, b]) 1 = _ := twiceAt_single [r] g [b] h
    have hb : twiceAt (.ofList [r, g, b]) 2 = _ := twiceAt_single [r, g] b [] h
    dsimp only [List.length]
    rw [hr, hg, hb]
    rfl
  | [r, r', g, g', b, b'] =>
    have hr : channelAt (.ofList [r, r', g, g', b, b']) 0 2 = _ :=
      channelAt_pair [] r r' [g, g', b, b'] h
    have hg : channelAt (.ofList [r, r', g, g', b, b']) 2 4 = _ :=
      channelAt_pair [r, r'] g g' [b, b'] h
    have hb : channelAt (.ofList [r, r', g, g', b, b']) 4 6 = _ :=
      channelAt_pair [r, r', g, g'] b b' [] h
    dsimp only [List.length]
    rw [hr, hg, hb]
    rfl
  | [r, r', g, g', b, b', a, a'] =>
    have hr : channelAt (.ofList [r, r', g, g', b, b', a, a']) 0 2 = _ :=
      channelAt_pair [] r r' [g, g', b, b', a, a'] h
    have hg : channelAt (.ofList [r, r', g, g', b, b', a, a']) 2 4 = _ :=
      channelAt_pair [r, r'] g g' [b, b', a, a'] h
    have hb : channelAt (.ofList [r, r', g, g', b, b', a, a']) 4 6 = _ :=
      channelAt_pair [r, r', g, g'] b b' [a, a'] h
    have ha : channelAt (.ofList [r, r', g, g', b, b', a, a']) 6 8 = _ :=
      channelAt_pair [r, r', g, g', b, b'] a a' [] h
    dsimp only [List.length]
    rw [hr, hg, hb, ha]
    rfl
  | [] | [_] | [_, _] | [_, _, _, _] | [_, _, _, _, _] | [_, _, _, _, _, _, _] => rfl
  | _ :: _ :: _ :: _ :: _ :: _ :: _ :: _ :: _ :: _ => rfl

/-- Digits that have not been checked may be cut within a character. -/
example : digitsColor "é1" = .error .misplaced := by decide

theorem signOf_minus (cs : List Char) : signOf (.ofList ('-' :: cs)) = .ok (-1, .ofList cs) := by
  obtain ⟨hbyte, hcut⟩ := byte_in_front '-' cs (by decide)
  rw [signOf, hbyte, hcut]
  rfl

theorem signOf_plus (cs : List Char) : signOf (.ofList ('+' :: cs)) = .ok (1, .ofList cs) := by
  obtain ⟨hbyte, hcut⟩ := byte_in_front '+' cs (by decide)
  rw [signOf, hbyte, hcut]
  rfl

theorem signOf_unsigned {cs : List Char} (hminus : cs.head? ≠ some '-')
    (hplus : cs.head? ≠ some '+') : signOf (.ofList cs) = .ok (1, .ofList cs) := by
  have hfirst {c : Char} (hc : c.toNat < 128) (h : cs.head? ≠ some c) :
      (bytesOf (.ofList cs)).head? ≠ some (UInt8.ofNat c.toNat) := by
    rwa [Ne, head?_bytesOf _ hc, String.toList_ofList]
  rw [signOf]
  split
  · next h => exact absurd h (hfirst (by decide) hminus)
  · next h => exact absurd h (hfirst (by decide) hplus)
  · rfl

theorem leadingDigits_eq (cs : List Char) :
    leadingDigits cs =
      if cs.takeWhile isDigit ≠ [] ∧ decimalValue (cs.takeWhile isDigit) ≤ maxInteger then
        some (decimalValue (cs.takeWhile isDigit))
      else none := by
  rw [leadingDigits]
  cases cs.takeWhile isDigit with
  | nil => rfl
  | cons c ds => simp

theorem leastWord_eq : leastWord = -maxInteger - 1 := rfl

theorem greatestWord_eq : greatestWord = maxInteger := rfl

theorem number?_leading (cs : List Char) :
    number? 10 leastWord greatestWord (.ofList (cs.takeWhile isDigit)) =
      (leadingDigits cs).map fun n : Nat => (n : Int) := by
  have hdigits : ∀ c ∈ cs.takeWhile isDigit, digitIn? 10 c = some (digitValue c) :=
    fun c hc => digitIn?_of_isDigit (List.mem_takeWhile_imp hc)
  have hvalue : numeral 10 digitValue (cs.takeWhile isDigit) =
      decimalValue (cs.takeWhile isDigit) := rfl
  rw [number?_eq hdigits, leadingDigits_eq, hvalue]
  generalize cs.takeWhile isDigit = ds
  have hleast := leastWord_eq
  have hgreatest := greatestWord_eq
  by_cases hread : ds ≠ [] ∧ decimalValue ds ≤ maxInteger
  case pos =>
    rw [if_pos hread, if_pos ⟨hread.1, by omega, by omega⟩]
    rfl
  case neg =>
    rw [if_neg hread, if_neg fun h => hread ⟨h.1, by omega⟩]
    rfl

/-- A number that fits does so with either sign. -/
theorem signedWord_eq {sign : Int} (hsign : sign = 1 ∨ sign = -1) (cs : List Char) :
    signedWord sign (.ofList cs) = .ok ((leadingDigits cs).map fun n : Nat => sign * n) := by
  have hcut := cut_offset (!isDigit ·) cs
  simp only [Bool.not_not] at hcut
  rw [signedWord, String.toList_ofList, hcut]
  change (match number? 10 _ _ (String.ofList (cs.takeWhile isDigit)) with
    | some n => _
    | none => _) = _
  rw [number?_leading]
  cases hn : leadingDigits cs with
  | none => rfl
  | some n =>
    have hmax : n ≤ maxInteger := by
      rw [leadingDigits_eq] at hn
      split at hn
      · next h => exact Option.some.inj hn ▸ h.2
      · cases hn
    have hleast := leastWord_eq
    have hgreatest := greatestWord_eq
    have hword : word (sign * n) = .ok (sign * n) := by
      rcases hsign with rfl | rfl
      · exact if_pos (by omega)
      · exact if_pos (by omega)
    change (do return some (← word (sign * n))) = _
    rw [hword]
    rfl

/-- The smallest number of 64 bits is the one that does not fit with the other sign. -/
example : word (-1 * leastWord) = .error .overflow := by decide

theorem leadingWord_eq (s : String) : leadingWord s = .ok (leadingInt s) := by
  rw [leadingWord, trim, leadingInt]
  split
  · next cs hcs =>
    rw [hcs, signOf_minus, map_cast]
    refine (signedWord_eq (.inr rfl) cs).trans ?_
    simp only [Int.neg_mul, Int.one_mul]
  · next cs hcs =>
    rw [hcs, signOf_plus, map_cast]
    refine (signedWord_eq (.inl rfl) cs).trans ?_
    simp only [Int.one_mul]
  · next hminus hplus =>
    have hunsigned {c : Char} (h : ∀ cs, stripWhile isBlank s.toList ≠ c :: cs) :
        (stripWhile isBlank s.toList).head? ≠ some c := by
      intro hc
      obtain ⟨cs, hcs⟩ := List.head?_eq_some_iff.mp hc
      exact h cs hcs
    rw [signOf_unsigned (hunsigned hminus) (hunsigned hplus), map_cast]
    refine (signedWord_eq (.inl rfl) _).trans ?_
    simp only [Int.one_mul]

theorem colorOf_eq (token : Option String) : colorOf token = .ok (ColorValue.ofText token) := by
  rw [colorOf, ColorValue.ofText, ColorValue.ofToken]
  simp only [hexColor_eq]
  generalize trim (token.getD "") = t
  split
  · rfl
  · split
    · cases ofHex? t <;> rfl
    · rfl

theorem lengthOf_eq (value : Option PropValue) (fallback : Binary64) :
    lengthOf value fallback = .ok (Style.lengthOf value fallback) := by
  match value with
  | some (.text s) =>
    rw [lengthOf, leadingWord_eq]
    rfl
  | some (.number _) | some (.bool _) | some (.other _) | none => rfl

theorem letterSpacingOf_eq (value : Option PropValue) :
    letterSpacingOf value = .ok (Style.letterSpacingOf value) := by
  match value with
  | some (.text s) =>
    rw [letterSpacingOf, Style.letterSpacingOf, lengthOf_eq]
    split <;> rfl
  | some (.number _) | some (.bool _) | some (.other _) | none => rfl

theorem sizeOfText_eq (s : String) : sizeOfText s = .ok (.ofText s) := by
  unfold sizeOfText Dimension.ofText
  simp only [leadingWord_eq]
  generalize trim s = t
  split
  · rfl
  · split
    · rfl
    · cases leadingInt t <;> rfl

theorem mapM_leadingWord (ws : List String) :
    (ws.mapM fun w => do return (← leadingWord w).getD 0 : Except Slip (List Int)) =
      .ok (ws.map fun w => (leadingInt w).getD 0) := by
  induction ws with
  | nil => rfl
  | cons w ws ih =>
    rw [List.mapM_cons, ih, leadingWord_eq]
    rfl

theorem insetsOfText_eq (s : String) : insetsOfText s = .ok (.ofText s) := by
  unfold insetsOfText Insets.ofText
  rw [mapM_leadingWord]
  generalize (words s).map (fun w => (leadingInt w).getD 0) = ns
  match ns with
  | [] | [_] | [_, _] | [_, _, _] | [_, _, _, _] | _ :: _ :: _ :: _ :: _ :: _ => rfl

theorem sizeOf_eq (value : Option PropValue) : sizeOf value = .ok (.of value) := by
  match value with
  | some (.text s) => exact sizeOfText_eq s
  | some (.number _) | some (.bool _) | some (.other _) | none => rfl

theorem word_clamp (n : Int) : word (Insets.clamp n) = .ok (Insets.clamp n) := by
  refine if_pos ?_
  unfold Insets.clamp leastWord greatestWord
  omega

theorem insetsOf_eq (value : Option PropValue) : insetsOf value = .ok (.of value) := by
  match value with
  | some (.text s) => exact insetsOfText_eq s
  | some (.number x) =>
    rw [insetsOf, Insets.of, word_clamp]
    split <;> rfl
  | some (.bool _) | some (.other _) | none => rfl

/-- Every conversion comes through, whatever it is given: no cut is misplaced, no number is too
large, and no digits are left unread. -/
theorem conversions_ok (s : String) (token border : Option String) (value : Option PropValue)
    (fallback : Binary64) :
    hexColor s = .ok (ofHex? s) ∧
      leadingWord s = .ok (leadingInt s) ∧
      colorOf token = .ok (ColorValue.ofText token) ∧
      colorOf (border.bind fun b => (words b).getLast?) = .ok (ColorValue.ofBorder border) ∧
      lengthOf value fallback = .ok (Style.lengthOf value fallback) ∧
      letterSpacingOf value = .ok (Style.letterSpacingOf value) ∧
      sizeOf value = .ok (Dimension.of value) ∧
      insetsOf value = .ok (Insets.of value) :=
  ⟨hexColor_eq s, leadingWord_eq s, colorOf_eq token, colorOf_eq _, lengthOf_eq value fallback,
    letterSpacingOf_eq value, sizeOf_eq value, insetsOf_eq value⟩

end Screenwright.Proofs.Bytewise
