import Screenwright.Dart.Style
import Screenwright.Proofs.Exactness
import Screenwright.Proofs.Figures
import Screenwright.Proofs.Integers

namespace Screenwright.Proofs.Lengths
open Dart Design Style Text Stripping Integers Figures Exactness

/-- The numeral of an integer with a unit behind it, which does not go on with its digits, and with
blanks around both. -/
structure Measure (n : Int) (s : String) : Prop where
  parts : ∃ front unit back, s.toList = front ++ (toString n).toList ++ unit ++ back ∧
    (∀ c ∈ front, isBlank c = true) ∧ (∀ c ∈ back, isBlank c = true) ∧
    ∀ c, unit.head? = some c → c.isDigit = false

variable {n : Int} {s : String}

theorem denoted_toDigits (n : Nat) : denoted (Nat.toDigits 10 n) = n := by
  rw [← decimalValue_eq, decimalValue_toDigits]

theorem run_toDigits {unit back : List Char} (n : Nat) (hback : ∀ c ∈ back, isBlank c = true)
    (hunit : ∀ c, unit.head? = some c → c.isDigit = false) :
    Run (Nat.toDigits 10 n) (unit ++ back) := by
  constructor
  case nonempty => exact Nat.toDigits_ne_nil
  case digits => exact fun c hc => Nat.isDigit_of_mem_toDigits (by decide) (by decide) hc
  case ends =>
    intro c hc
    cases unit with
    | cons d unit => exact hunit c hc
    | nil =>
      have hblank : isBlank c = true := hback c (List.mem_of_mem_head? hc)
      by_contra hd
      rw [isBlank_of_isDigit (Bool.eq_true_of_not_eq_false hd)] at hblank
      cases hblank

theorem Measure.starts (h : Measure n s) : Starts s n := by
  obtain ⟨front, unit, back, hs, hfront, hback, hunit⟩ := h.parts
  refine ⟨front, (toString n).toList ++ unit ++ back, by simpa using hs, hfront, ?_⟩
  cases n with
  | ofNat n =>
    have hdigits : (toString (Int.ofNat n)).toList = Nat.toDigits 10 n := Nat.toList_repr
    rw [hdigits, List.append_assoc]
    refine ⟨[], Nat.toDigits 10 n, unit ++ back, rfl, run_toDigits n hback hunit, ?_⟩
    rw [denoted_toDigits]
    exact .none
  | negSucc n =>
    have hdigits : (toString (Int.negSucc n)).toList = '-' :: Nat.toDigits 10 (n + 1) := by
      have hsign : toString (Int.negSucc n) = "-" ++ toString (n + 1) := rfl
      rw [hsign, String.toList_append, Nat.toString_eq_repr, Nat.toList_repr]
      rfl
    rw [hdigits, List.append_assoc]
    refine ⟨['-'], Nat.toDigits 10 (n + 1), unit ++ back, rfl, run_toDigits (n + 1) hback hunit, ?_⟩
    rw [denoted_toDigits]
    exact .minus

theorem leadingInt_of_short (h : n.natAbs < 10 ^ 15) (hs : Starts s n) : leadingInt s = some n := by
  have hbounds : -2 ^ 63 < n ∧ n ≤ 2 ^ 63 - 1 := by omega
  rw [leadingInt_of_starts hs, if_pos hbounds]

theorem leadingInt_of_beyond (h : ∀ v, Starts s v → v < -2 ^ 63 ∨ 2 ^ 63 ≤ v) :
    leadingInt s = none := by
  by_cases hs : ∃ v, Starts s v
  · obtain ⟨v, hv⟩ := hs
    have hout := h v hv
    rw [leadingInt_of_starts hv, if_neg (by omega)]
  · exact leadingInt_of_not_starts fun v hv => hs ⟨v, hv⟩

theorem plain_lengthOf (h : n.natAbs < 10 ^ 15) (hs : Starts s n) (fallback : Binary64) :
    (lengthOf (some (.text s)) fallback).plain = toString n := by
  rw [lengthOf_text, leadingInt_of_short h hs, Option.map_some, Option.getD_some, plain_ofInt h]

/-- Of the keywords for sizes, only the whole size in percent starts with an integer. -/
theorem dimension_of_integer (h : leadingInt s = some n) :
    Dimension.ofText s = if trim s = "100%" then .fill else .fixed (.ofInt n) := by
  rw [← leadingInt_trim] at h
  have hkeyword : ¬ (trim s = "" ∨ trim s = "auto") := by
    rintro (he | he) <;> rw [he] at h <;> cases h
  simp only [Dimension.ofText, if_neg hkeyword, h]

theorem dimension_of_none (h : leadingInt s = none) : Dimension.ofText s = .unconstrained := by
  rw [← leadingInt_trim] at h
  have hfill : trim s ≠ "100%" := by
    intro he
    rw [he] at h
    cases h
  simp [Dimension.ofText, hfill, h]

/-- A numeral of no more than 15 digits is printed as it stands in the text, as a length and, unless
the text is the whole size in percent, as a size. A text that starts with no integer, or with one of
more than 64 bits, gives the fallback of a length, and no size. -/
theorem lengths_printed (s : String) (column : Nat) :
    (∀ n : Int, n.natAbs < 10 ^ 15 → Measure n s →
      (∀ fallback, (lengthOf (some (.text s)) fallback).plain = toString n) ∧
        (Dimension.of (some (.text s))).toDart.render column =
          if trim s = "100%" then "double.infinity" else toString n) ∧
      ((∀ n, Starts s n → n < -2 ^ 63 ∨ 2 ^ 63 ≤ n) →
        (∀ fallback, lengthOf (some (.text s)) fallback = fallback) ∧
          (Dimension.of (some (.text s))).toDart.render column = "null") := by
  have hof : Dimension.of (some (.text s)) = Dimension.ofText s := rfl
  rw [hof]
  refine ⟨fun n hn hs => ⟨plain_lengthOf hn hs.starts, ?_⟩, fun hs => ⟨fun fallback => ?_, ?_⟩⟩
  · rw [dimension_of_integer (leadingInt_of_short hn hs.starts)]
    split
    · rfl
    · exact plain_ofInt hn
  · rw [lengthOf_text, leadingInt_of_beyond hs, Option.map_none, Option.getD_none]
  · rw [dimension_of_none (leadingInt_of_beyond hs)]
    rfl

theorem lengths_printed_units :
    (Measure (-12) "\u2003-12.5em " ∧
      (∀ fallback, (lengthOf (some (.text "\u2003-12.5em ")) fallback).plain = "-12") ∧
      (Dimension.of (some (.text "\u2003-12.5em "))).toDart.render 0 = "-12") ∧
    (Measure 100 "100% " ∧
      (Dimension.of (some (.text "100% "))).toDart.render 0 = "double.infinity") ∧
    (∀ n, ¬ Starts "auto" n) ∧
      (∀ fallback, lengthOf (some (.text "auto")) fallback = fallback) ∧
      (Dimension.of (some (.text "auto"))).toDart.render 0 = "null" := by
  have hunit : Measure (-12) "\u2003-12.5em " :=
    ⟨['\u2003'], ".5em".toList, [' '], by decide, by simp [isBlank], by simp [isBlank], by simp⟩
  have hfill : Measure 100 "100% " :=
    ⟨[], ['%'], [' '], by decide, by simp, by simp [isBlank], by simp⟩
  have hauto : ∀ n, ¬ Starts "auto" n := by
    rintro n ⟨blanks, _, hs, _, sign, ds, rest, rfl, hrun, _⟩
    obtain ⟨d, hd⟩ := List.exists_mem_of_ne_nil ds hrun.nonempty
    have hmem : d ∈ "auto".toList := by
      rw [hs]
      simp [hd]
    have hnone : ∀ c ∈ "auto".toList, (!c.isDigit) = true := List.all_eq_true.mp rfl
    exact absurd (hrun.digits d hd) (by simpa using hnone d hmem)
  have htrim : trim "\u2003-12.5em " ≠ "100%" := by decide
  obtain ⟨hlength, hsize⟩ := (lengths_printed "\u2003-12.5em " 0).1 (-12) (by decide) hunit
  obtain ⟨_, hwhole⟩ := (lengths_printed "100% " 0).1 100 (by decide) hfill
  obtain ⟨hfallback, hnull⟩ := (lengths_printed "auto" 0).2 fun n hn =>
    absurd hn (hauto n)
  rw [if_neg htrim] at hsize
  rw [if_pos (by decide)] at hwhole
  exact ⟨⟨hunit, hlength, hsize⟩, ⟨hfill, hwhole⟩, hauto, hfallback, hnull⟩

end Screenwright.Proofs.Lengths
