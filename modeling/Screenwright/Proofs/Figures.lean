import Screenwright.Number.Numeral
import Screenwright.Text.Digits

namespace Screenwright.Proofs.Figures

def isFigure (c : Char) : Bool :=
  c.isDigit || c ∈ ['-', '.', 'x', 'A', 'B', 'C', 'D', 'E', 'F', 'N', 'a', 'f', 'i', 'n']

def OfFigures (s : String) : Prop := ∀ c ∈ s.toList, isFigure c = true

theorem figures_ofList {cs : List Char} (h : ∀ c ∈ cs, isFigure c = true) :
    OfFigures (String.ofList cs) := by
  simpa [OfFigures] using h

theorem figures_text {s : String} (h : s.toList.all isFigure = true) : OfFigures s :=
  List.all_eq_true.mp h

theorem OfFigures.append {s t : String} (hs : OfFigures s) (ht : OfFigures t) :
    OfFigures (s ++ t) := by
  intro c hc
  rcases List.mem_append.mp (String.toList_append ▸ hc) with hc | hc
  · exact hs c hc
  · exact ht c hc

/-- The digits of a number denote it. -/
theorem decimalValue_toDigits (n : Nat) : Text.decimalValue (Nat.toDigits 10 n) = n :=
  Nat.ofDigitChars_toDigits (by decide) (by decide)

theorem isDigit_of_mem_toDigits {n : Nat} {c : Char} (h : c ∈ Nat.toDigits 10 n) :
    Text.isDigit c = true := Nat.isDigit_of_mem_toDigits (by decide) (by decide) h

theorem isFigure_of_mem_toDigits {n : Nat} {c : Char} (h : c ∈ Nat.toDigits 10 n) :
    isFigure c = true := by
  simp [isFigure, Nat.isDigit_of_mem_toDigits (by decide) (by decide) h]

theorem figures_nat (n : Nat) : OfFigures (toString n) := by
  intro c hc
  rw [Nat.toString_eq_repr, Nat.toList_repr] at hc
  exact isFigure_of_mem_toDigits hc

theorem figures_int (n : Int) : OfFigures (toString n) := by
  cases n with
  | ofNat n => exact figures_nat n
  | negSucc n => exact (figures_text (by decide) : OfFigures "-").append (figures_nat (n + 1))

theorem figures_sign (x : Binary64) : OfFigures x.sign := by
  unfold Binary64.sign
  split
  · exact figures_text (by decide)
  · exact figures_ofList (by simp)

theorem figures_special (x : Binary64) : OfFigures x.special := by
  unfold Binary64.special
  split
  · exact figures_text (by decide)
  · exact (figures_sign x).append (figures_text (by decide))

theorem figures_zeros (n : Nat) : OfFigures (Decimal.zeros n) := by
  refine figures_ofList fun c hc => ?_
  rw [List.eq_of_mem_replicate hc]
  decide

theorem figures_positional (d : Decimal) : OfFigures d.positional := by
  have hall : ∀ c ∈ d.figures, isFigure c = true := fun c hc => isFigure_of_mem_toDigits hc
  have htake (n : Nat) := figures_ofList fun c hc => hall c (List.mem_of_mem_take (i := n) hc)
  have hdrop (n : Nat) := figures_ofList fun c hc => hall c (List.mem_of_mem_drop (i := n) hc)
  have hpoint : OfFigures "." := figures_text (by decide)
  have hlead : OfFigures "0." := figures_text (by decide)
  unfold Decimal.positional
  split
  · exact (figures_ofList hall).append (figures_zeros _)
  · split
    · exact ((htake _).append hpoint).append (hdrop _)
    · exact (hlead.append (figures_zeros _)).append (figures_ofList hall)

theorem figures_digitsText (x : Binary64) : OfFigures x.digitsText := by
  unfold Binary64.digitsText
  split
  · exact (figures_sign x).append (figures_positional _)
  · exact figures_special x

theorem figures_plain (x : Binary64) : OfFigures x.plain := by
  unfold Binary64.plain
  split
  · exact figures_int _
  · exact figures_digitsText x

theorem figures_pointed (x : Binary64) : OfFigures x.pointed := by
  unfold Binary64.pointed
  split
  · exact ((figures_sign x).append (figures_nat _)).append (figures_text (by decide))
  · exact figures_digitsText x

theorem isFigure_hexDigit {n : Nat} (h : n < 16) : isFigure (Text.hexDigit n) = true := by
  revert n
  decide

theorem figures_hexFixed (width n : Nat) :
    ∀ c ∈ Text.hexFixed width n, isFigure c = true := by
  induction width generalizing n with
  | zero => simp [Text.hexFixed]
  | succ width ih =>
    intro c hc
    rcases List.mem_append.mp hc with hc | hc
    · exact ih _ c hc
    · rw [List.mem_singleton.mp hc]
      exact isFigure_hexDigit (Nat.mod_lt n (by decide))

end Screenwright.Proofs.Figures
