import Screenwright.Dart.Style
import Screenwright.Proofs.Colors
import Screenwright.Proofs.Words

namespace Screenwright.Proofs.Channels
open Dart Style Color Text Words Colors

/-- The digits of alpha, red, green and blue. A channel that is given with one digit has it twice,
and alpha is full unless it is given. -/
def argbDigits : List Char → List Char
  | [r, g, b] => ['F', 'F', r, r, g, g, b, b]
  | [r, r', g, g', b, b'] => ['F', 'F', r, r', g, g', b, b']
  | [r, r', g, g', b, b', a, a'] => [a, a', r, r', g, g', b, b']
  | _ => []

def printedDigits (ds : List Char) : List Char := (argbDigits ds).map Char.toUpper

def literal (ds : List Char) : String := "Color(0x" ++ String.ofList (printedDigits ds) ++ ")"

def IsCapital (c : Char) : Prop := '0' ≤ c ∧ c ≤ '9' ∨ 'A' ≤ c ∧ c ≤ 'F'

instance (c : Char) : Decidable (IsCapital c) := inferInstanceAs (Decidable (_ ∨ _))

def nibble (c : Char) : Nat := (hexValue? c).getD 0

/-- The number of a row of digits, from the highest one down. -/
def packed (vs : List Nat) : Nat := vs.foldl (fun n v => 16 * n + v) 0

variable {ds : List Char} {c : Char}

/-- A digit of either case is found again, in upper case, from its value. -/
theorem hexDigit_nibble (h : isHexDigit c = true) :
    nibble c < 16 ∧ hexDigit (nibble c) = c.toUpper ∧ IsCapital c.toUpper := by
  have hall : ∀ n < 103, isHexDigit (Char.ofNat n) = true →
      nibble (Char.ofNat n) < 16 ∧ hexDigit (nibble (Char.ofNat n)) = (Char.ofNat n).toUpper ∧
        IsCapital (Char.ofNat n).toUpper := by decide
  have hc := hall c.toNat (toNat_of_isHexDigit h).2
  rw [Char.ofNat_toNat] at hc
  exact hc h

/-- Printing a number gives the digits that it is made of. -/
theorem hexFixed_packed {vs : List Nat} (h : ∀ v ∈ vs, v < 16) :
    hexFixed vs.length (packed vs) = vs.map hexDigit := by
  induction vs using List.reverseRecOn with
  | nil => rfl
  | append_singleton vs v ih =>
    have hv : v < 16 := h v (by simp)
    have hstep : packed (vs ++ [v]) = 16 * packed vs + v := by simp [packed]
    have hhigh : (16 * packed vs + v) / 16 = packed vs := by omega
    have hlow : (16 * packed vs + v) % 16 = v := by omega
    rw [List.length_append, List.length_singleton, hexFixed, hstep, hhigh, hlow,
      ih fun w hw => h w (List.mem_append_left _ hw), List.map_append, List.map_singleton]

theorem toNat_channel {high low : Nat} (hh : high < 16) (hl : low < 16) :
    (channel high low).toNat = 16 * high + low := by
  have hbyte : 16 * high + low < 2 ^ 8 := by omega
  exact UInt8.toNat_ofNat_of_lt' hbyte

/-- The number of a color has the digits of its channels, alpha first. -/
theorem argb_channels {a a' r r' g g' b b' : Nat} (h : ∀ v ∈ [a, a', r, r', g, g', b, b'], v < 16) :
    argb ⟨channel r r', channel g g', channel b b', channel a a'⟩ =
      packed [a, a', r, r', g, g', b, b'] := by
  simp only [List.forall_mem_cons] at h
  obtain ⟨ha, ha', hr, hr', hg, hg', hb, hb', _⟩ := h
  rw [argb, toNat_channel ha ha', toNat_channel hr hr', toNat_channel hg hg',
    toNat_channel hb hb']
  simp only [packed, List.foldl_cons, List.foldl_nil]
  omega

theorem mapM_oneMark (h : Hex ds) :
    ((oneMark ds).toList.dropWhile (· = '#')).mapM hexValue? = some (ds.map nibble) := by
  have hall : ds.all isHexDigit = true := List.all_eq_true.mpr h.digits
  have hmarks : (oneMark ds).toList.dropWhile (· = '#') = ds := by
    simpa [oneMark] using dropWhile_marks h 1
  rw [hmarks, mapM_hexValue?, if_pos hall]
  rfl

theorem channels_of_hex (h : Hex ds) :
    ∃ a a' r r' g g' b b', argbDigits ds = [a, a', r, r', g, g', b, b'] ∧
      (∀ c ∈ [a, a', r, r', g, g', b, b'], isHexDigit c = true) ∧
      Color.ofHex? (oneMark ds) =
        some ⟨channel (nibble r) (nibble r'), channel (nibble g) (nibble g'),
          channel (nibble b) (nibble b'), channel (nibble a) (nibble a')⟩ := by
  have hmap := mapM_oneMark h
  have hfull : isHexDigit 'F' = true := by decide
  have halpha : (255 : UInt8) = channel (nibble 'F') (nibble 'F') := by decide
  obtain ⟨hcount, hdigits⟩ := h
  match ds with
  | [r, g, b] =>
    simp only [List.forall_mem_cons] at hdigits
    obtain ⟨hr, hg, hb, hnil⟩ := hdigits
    refine ⟨'F', 'F', r, r, g, g, b, b, rfl, ?_, ?_⟩
    · simp only [List.forall_mem_cons]
      exact ⟨hfull, hfull, hr, hr, hg, hg, hb, hb, hnil⟩
    · rw [ofHex?, hmap, ← halpha]
      rfl
  | [r, r', g, g', b, b'] =>
    simp only [List.forall_mem_cons] at hdigits
    refine ⟨'F', 'F', r, r', g, g', b, b', rfl, ?_, ?_⟩
    · simp only [List.forall_mem_cons]
      exact ⟨hfull, hfull, hdigits⟩
    · rw [ofHex?, hmap, ← halpha]
      rfl
  | [r, r', g, g', b, b', a, a'] =>
    simp only [List.forall_mem_cons] at hdigits
    obtain ⟨hr, hr', hg, hg', hb, hb', ha, ha', hnil⟩ := hdigits
    refine ⟨a, a', r, r', g, g', b, b', rfl, ?_, ?_⟩
    · simp only [List.forall_mem_cons]
      exact ⟨ha, ha', hr, hr', hg, hg', hb, hb', hnil⟩
    · rw [ofHex?, hmap]
      rfl
  | [] | [_] | [_, _] | [_, _, _, _] | [_, _, _, _, _] | [_, _, _, _, _, _, _]
  | _ :: _ :: _ :: _ :: _ :: _ :: _ :: _ :: _ :: _ => simp at hcount

theorem render_of_hex (h : Hex ds) (column : Nat) :
    ∃ c, ofHex? (oneMark ds) = some c ∧
      (ColorValue.solid c).toDart.render column = literal ds := by
  obtain ⟨a, a', r, r', g, g', b, b', hargb, hall, hcolor⟩ := channels_of_hex h
  refine ⟨_, hcolor, ?_⟩
  have hvalues : ∀ v ∈ [a, a', r, r', g, g', b, b'].map nibble, v < 16 := by
    intro v hv
    obtain ⟨c, hc, rfl⟩ := List.mem_map.mp hv
    exact (hexDigit_nibble (hall c hc)).1
  have hprinted : hexFixed 8 (packed ([a, a', r, r', g, g', b, b'].map nibble)) =
      printedDigits ds := by
    have hdigits := hexFixed_packed hvalues
    rw [List.map_map] at hdigits
    rw [printedDigits, hargb]
    exact hdigits.trans (List.map_congr_left fun c hc => (hexDigit_nibble (hall c hc)).2.1)
  have hcall (text : String) : (Expr.call "Color" [Expr.plain (.word text)]).render column =
      "Color(" ++ text ++ ")" := by
    simp [Expr.render, Expr.renderArgs, Expr.labelled, Expr.plain]
  rw [ColorValue.toDart, hcall, argb_channels hvalues]
  simp only [List.map_cons, List.map_nil] at hprinted
  rw [hprinted, literal]
  rfl

theorem printedDigits_eight (h : Hex ds) :
    (printedDigits ds).length = 8 ∧ ∀ c ∈ printedDigits ds, IsCapital c := by
  obtain ⟨a, a', r, r', g, g', b, b', hargb, hall, _⟩ := channels_of_hex h
  rw [printedDigits, hargb]
  refine ⟨rfl, fun c hc => ?_⟩
  obtain ⟨d, hd, rfl⟩ := List.mem_map.mp hc
  exact (hexDigit_nibble (hall d hd)).2.2

/-- The digits of a color behind one hash sign, in a text of their own or in the last word of a
border, are printed as a constructor call with eight digits in upper case. -/
theorem digits_printed (h : Hex ds) (column : Nat) :
    ((printedDigits ds).length = 8 ∧ ∀ c ∈ printedDigits ds, IsCapital c) ∧
      (∀ front back s, s.toList = front ++ '#' :: ds ++ back →
        (∀ c ∈ front, isBlank c = true) → (∀ c ∈ back, isBlank c = true) →
        (ColorValue.ofText (some s)).toDart.render column = literal ds) ∧
      ∀ border ws, Splits border.toList (ws ++ [oneMark ds]) →
        (ColorValue.ofBorder (some border)).toDart.render column = literal ds := by
  have hsolid {s : String} (hs : trim s = oneMark ds) :
      (ColorValue.ofText (some s)).toDart.render column = literal ds := by
    obtain ⟨c, hc, hprint⟩ := render_of_hex h column
    have hmarked : Marked 1 (trim s) := hs ▸ ⟨ds, String.toList_ofList, h⟩
    obtain ⟨c', hc', htoken⟩ := ofToken_of_marked (Nat.le_refl 1) hmarked
    obtain rfl : c = c' := by simpa [hs, hc] using hc'
    rw [ColorValue.ofText, Option.getD_some, htoken, hprint]
  refine ⟨printedDigits_eight h, fun front back s hs hfront hback =>
    hsolid (trim_padded h front back hs hfront hback), fun border ws hwords => ?_⟩
  have hlast : (words border).getLast? = some (oneMark ds) := by
    rw [← splits_iff.mp hwords, List.getLast?_concat]
  rw [ColorValue.ofBorder, Option.bind_some, hlast]
  exact hsolid (trim_oneMark h)

theorem digits_printed_transparent :
    Hex "12aBcD00".toList ∧
      (ColorValue.ofText (some " #12aBcD00\u2003")).toDart.render 0 = "Color(0x0012ABCD)" ∧
      Splits "1px solid #12aBcD00 ".toList (["1px", "solid"] ++ [oneMark "12aBcD00".toList]) ∧
      (ColorValue.ofBorder (some "1px solid #12aBcD00 ")).toDart.render 0 = "Color(0x0012ABCD)" ∧
      Hex "0aF".toList ∧
      (ColorValue.ofText (some "#0aF")).toDart.render 0 = "Color(0xFF00AAFF)" := by
  have height : Hex "12aBcD00".toList := ⟨by decide, List.all_eq_true.mp rfl⟩
  have hthree : Hex "0aF".toList := ⟨by decide, List.all_eq_true.mp rfl⟩
  have hborder : Splits "1px solid #12aBcD00 ".toList
      (["1px", "solid"] ++ [oneMark "12aBcD00".toList]) := splits_iff.mpr (by decide)
  obtain ⟨_, htext, hlast⟩ := digits_printed height 0
  obtain ⟨_, hshort, _⟩ := digits_printed hthree 0
  have htrimmed := htext [' '] ['\u2003'] " #12aBcD00\u2003" (by decide) (by simp [isBlank])
    (by simp [isBlank])
  exact ⟨height, htrimmed, hborder, hlast _ _ hborder, hthree,
    hshort [] [] _ (by decide) (by simp) (by simp)⟩

end Screenwright.Proofs.Channels
