import Mathlib.Tactic.SplitIfs
import Screenwright.Json.Token
import Screenwright.Proofs.Exactness

namespace Screenwright.Proofs.Numerals
open Json Text Exactness

/-- A character with which a number could go on. -/
def isNumberChar (c : Char) : Bool := isDigit c || c = '.' || c = 'e' || c = 'E'

/-- A text that no number goes on with. -/
def Clear (rest : List Char) : Prop := ∀ c ∈ rest.head?, isNumberChar c = false

theorem clear_nil : Clear [] := fun _ h => nomatch h

theorem clear_cons {c : Char} (h : isNumberChar c = false) (cs : List Char) : Clear (c :: cs) :=
  fun _ hd => Option.some.inj hd ▸ h

variable {cs rest after : List Char}

theorem Clear.dropWhile (h : Clear rest) : rest.dropWhile isDigit = rest := by
  cases rest with
  | nil => rfl
  | cons c rest =>
    have hc : isNumberChar c = false := h c rfl
    refine List.dropWhile_cons_of_neg fun hd => ?_
    simp [isNumberChar, hd] at hc

theorem Clear.takeWhile (h : Clear rest) : rest.takeWhile isDigit = [] := by
  cases rest with
  | nil => rfl
  | cons c rest =>
    have hc : isNumberChar c = false := h c rfl
    refine List.takeWhile_cons_of_neg fun hd => ?_
    simp [isNumberChar, hd] at hc

theorem takeWhile_append (h : Clear rest) (cs : List Char) :
    (cs ++ rest).takeWhile isDigit = cs.takeWhile isDigit := by
  induction cs with
  | nil => exact h.takeWhile
  | cons c cs ih =>
    rw [List.cons_append, List.takeWhile_cons, List.takeWhile_cons, ih]

theorem dropWhile_append (h : Clear rest) (cs : List Char) :
    (cs ++ rest).dropWhile isDigit = cs.dropWhile isDigit ++ rest := by
  induction cs with
  | nil => exact h.dropWhile
  | cons c cs ih =>
    rw [List.cons_append, List.dropWhile_cons, List.dropWhile_cons, ih]
    split <;> rfl

/-- A literal is cut off as it is without the text behind. -/
def Cuts (scan : List Char → Numeral.Scan) : Prop :=
  ∀ {cs rest after : List Char} {numeral : Numeral}, Clear rest →
    scan cs = .ok (numeral, after) → scan (cs ++ rest) = .ok (numeral, after ++ rest)

/-- The end of a literal, from the digits of its exponent on. -/
def exponentDigits (numeral : Numeral) (down : Bool) : List Char → Numeral.Scan
  | [] => .error (.atEnd .endOfValue, .atEnd .badNumber)
  | d :: ds =>
    if isDigit d then
      .ok (⟨numeral.negative, numeral.whole, numeral.fraction,
        some (down, (d :: ds).takeWhile isDigit)⟩, (d :: ds).dropWhile isDigit)
    else .error (.past .badNumber (d :: ds), .past .badNumber (d :: ds))

/-- What follows the sign of an exponent, if it has one. -/
def unsigned (cs : List Char) : List Char :=
  if cs.head? = some '-' ∨ cs.head? = some '+' then cs.drop 1 else cs

theorem scanExponent_cons (numeral : Numeral) (c : Char) (cs : List Char) :
    Numeral.scanExponent numeral (c :: cs) =
      if c = 'e' ∨ c = 'E' then
        exponentDigits numeral (decide (cs.head? = some '-')) (unsigned cs)
      else .ok (numeral, c :: cs) := by
  unfold Numeral.scanExponent unsigned
  dsimp only
  generalize (if cs.head? = some '-' ∨ cs.head? = some '+' then cs.drop 1 else cs) = digits
  cases digits <;> rfl

theorem cuts_exponentDigits (numeral : Numeral) (down : Bool) :
    Cuts (exponentDigits numeral down) := by
  intro cs rest after n hrest h
  cases cs with
  | nil => cases h
  | cons d ds =>
    rw [exponentDigits] at h
    split_ifs at h with hd
    cases h
    rw [List.cons_append, exponentDigits, if_pos hd, ← List.cons_append, takeWhile_append hrest,
      dropWhile_append hrest]

theorem cuts_exponent (numeral : Numeral) : Cuts (Numeral.scanExponent numeral) := by
  intro cs rest after n hrest h
  cases cs with
  | nil =>
    cases h
    cases rest with
    | nil => rfl
    | cons c rest =>
      have hc : isNumberChar c = false := hrest c rfl
      have hnot : ¬ (c = 'e' ∨ c = 'E') := by
        rintro (rfl | rfl) <;> simp [isNumberChar] at hc
      exact if_neg hnot
  | cons c tail =>
    rw [List.cons_append]
    rw [scanExponent_cons] at h ⊢
    split at h
    · next hc =>
      rw [if_pos hc]
      cases tail with
      | nil => cases h
      | cons d tail =>
        have hsign : unsigned (d :: tail ++ rest) = unsigned (d :: tail) ++ rest := by
          by_cases hd : d = '-' ∨ d = '+' <;> simp [unsigned, hd]
        rw [hsign]
        exact cuts_exponentDigits _ _ hrest h
    · next hc =>
      rw [if_neg hc]
      cases h
      rfl

theorem cuts_fraction (numeral : Numeral) : Cuts (Numeral.scanFraction numeral) := by
  intro cs rest after n hrest h
  unfold Numeral.scanFraction at h
  split at h
  · next tail =>
    cases tail with
    | nil => cases h
    | cons d tail =>
      dsimp only at h
      split at h
      · next hd =>
        change (if isDigit d then Numeral.scanExponent ⟨numeral.negative, numeral.whole,
          some ((d :: tail ++ rest).takeWhile isDigit), none⟩
          ((d :: tail ++ rest).dropWhile isDigit) else _) = _
        rw [if_pos hd, takeWhile_append hrest, dropWhile_append hrest]
        exact cuts_exponent _ hrest h
      · cases h
  · next hpoint =>
    have hnot : ∀ tail, cs ++ rest ≠ '.' :: tail := by
      intro tail he
      cases cs with
      | nil =>
        subst he
        simpa [isNumberChar] using hrest '.' rfl
      | cons c cs => exact hpoint cs (by rw [(List.cons.inj he).1])
    unfold Numeral.scanFraction
    split
    · next tail he => exact absurd he (hnot tail)
    · exact cuts_exponent _ hrest h

theorem cuts_whole (negative : Bool) : Cuts (Numeral.scanWhole negative) := by
  intro cs rest after n hrest h
  cases cs with
  | nil => cases h
  | cons d tail =>
    rw [List.cons_append]
    unfold Numeral.scanWhole at h ⊢
    dsimp only at h ⊢
    split at h
    · next hd =>
      split at h
      · cases h
      · next hzero =>
        have hzero' : ¬ ((tail ++ rest).head?.any isDigit = true) := by
          cases tail with
          | nil =>
            intro hany
            obtain ⟨c, hc, hdigit⟩ := (Option.any_eq_true _ _).mp hany
            simpa [isNumberChar, hdigit] using hrest c hc
          | cons c tail => exact hzero
        rw [if_pos hd, if_neg hzero']
        exact cuts_fraction _ hrest h
    · next hd =>
      split at h
      · next hdigit =>
        rw [if_neg hd, if_pos hdigit, ← List.cons_append, takeWhile_append hrest,
          dropWhile_append hrest]
        exact cuts_fraction _ hrest h
      · cases h

theorem scan_unsigned {d : Char} (hd : isDigit d = true) (ds : List Char) :
    Numeral.scan (d :: ds) = Numeral.scanWhole false (d :: ds) := by
  unfold Numeral.scan
  split
  · next tail he => exact absurd (List.cons.inj he).1 (ne_of_test hd rfl)
  · rfl

theorem cuts_number : Cuts Numeral.scan := by
  intro cs rest after n hrest h
  unfold Numeral.scan at h
  split at h
  · exact cuts_whole true hrest h
  · next hminus =>
    unfold Numeral.scan
    split
    · next tail he =>
      cases cs with
      | nil => cases h
      | cons c cs => exact absurd (by rw [(List.cons.inj he).1]) (hminus cs)
    · exact cuts_whole false hrest h

theorem exists_word {negative : Bool} {num den : Nat} {x : Binary64}
    (h : Binary64.nearest negative num den = some x) :
    ∃ w, w < Binary64.lastExponent * Binary64.leadingBit ∧ x = .ofWord negative w := by
  unfold Binary64.nearest at h
  dsimp only at h
  split at h
  · next hlt => exact ⟨_, hlt, (Option.some.inj h).symm⟩
  · cases h

theorem isFinite_nearest {negative : Bool} {num den : Nat} {x : Binary64}
    (h : Binary64.nearest negative num den = some x) : x.isFinite = true := by
  obtain ⟨w, hlt, rfl⟩ := exists_word h
  exact isFinite_ofWord negative hlt

/-- A finite number without a sign. -/
def Absolute (x : Binary64) : Prop := x.word < Binary64.lastExponent * Binary64.leadingBit

theorem absolute_nearest {num den : Nat} {x : Binary64}
    (h : Binary64.nearest false num den = some x) : Absolute x := by
  obtain ⟨w, hlt, rfl⟩ := exists_word h
  rw [Absolute, word_ofWord false (Nat.lt_trans hlt (by decide))]
  exact hlt

theorem absolute_times {x y z : Binary64} (h : x.times y = some z) : Absolute z := by
  rw [Binary64.times] at h
  exact absolute_nearest h

theorem absolute_dividedBy {x y z : Binary64} (h : x.dividedBy y = some z) : Absolute z := by
  rw [Binary64.dividedBy] at h
  exact absolute_nearest h

theorem absolute_scaleUp {x y : Binary64} {exponent : Nat} (h : x.scaleUp exponent = some y) :
    Absolute y := by
  rw [Binary64.scaleUp] at h
  split_ifs at h
  obtain ⟨power, _, hy⟩ := Option.bind_eq_some_iff.mp h
  exact absolute_times hy

theorem absolute_scaleDown {steps : Nat} {x y : Binary64} {exponent : Nat} (hx : Absolute x)
    (h : Binary64.scaleDown steps x exponent = some y) : Absolute y := by
  induction steps generalizing x exponent with
  | zero =>
    rw [Binary64.scaleDown] at h
    obtain ⟨power, _, hy⟩ := Option.bind_eq_some_iff.mp h
    exact absolute_dividedBy hy
  | succ steps ih =>
    rw [Binary64.scaleDown] at h
    split at h
    · cases h
      exact hx
    · obtain ⟨power, _, hpower⟩ := Option.bind_eq_some_iff.mp h
      obtain ⟨z, hz, hy⟩ := Option.bind_eq_some_iff.mp hpower
      exact ih (absolute_dividedBy hz) hy

theorem absolute_scaleBy {x y : Binary64} {exponent : Int} (hx : Absolute x)
    (h : x.scaleBy exponent = some y) : Absolute y := by
  cases exponent with
  | ofNat e => exact absolute_scaleUp h
  | negSucc e => exact absolute_scaleDown hx h

theorem isFinite_ofParts {negative : Bool} {significand : Nat} {exponent : Int} {x : Binary64}
    (h : Binary64.ofParts negative significand exponent = some x) : x.isFinite = true := by
  rw [Binary64.ofParts] at h
  split_ifs at h
  · cases h
    exact isFinite_ofWord negative (by decide)
  obtain ⟨y, hy, hscale⟩ := Option.bind_eq_some_iff.mp h
  obtain ⟨z, hz, hsigned⟩ := Option.bind_eq_some_iff.mp hscale
  obtain rfl := Option.some.inj hsigned
  exact isFinite_ofWord negative (absolute_scaleBy (absolute_nearest hy) hz)

/-- A number that a literal can stand for. -/
def Fits : Number → Prop
  | .int n => -0x8000000000000000 ≤ n ∧ n < 0x10000000000000000
  | .float x => x.isFinite = true

theorem isFinite_ofInt {n : Int} (h : n.natAbs < 2 ^ 64) : (Binary64.ofInt n).isFinite = true := by
  obtain ⟨x, hx⟩ := exists_nearest h (decide (n < 0))
  rw [Binary64.ofInt, hx]
  exact isFinite_nearest hx

theorem isFinite_toBinary64 {n : Number} (h : Fits n) : n.toBinary64.isFinite = true := by
  cases n with
  | int n =>
    obtain ⟨hlow, hhigh⟩ := h
    exact isFinite_ofInt (by omega)
  | float x => exact h

/-- A number that is read whatever text follows. -/
def Settled (read : List Char → Except Fault Number) : Prop :=
  ∀ ⦃rest n⦄, read rest = .ok n → Fits n ∧ ∀ rest, read rest = .ok n

theorem settled_float (negative : Bool) (significand : Nat) (exponent : Int) :
    Settled (Numeral.float negative significand exponent) := by
  intro rest n h
  unfold Numeral.float at h ⊢
  cases hx : Binary64.ofParts negative significand exponent with
  | none =>
    rw [hx] at h
    cases h
  | some x =>
    rw [hx] at h
    cases h
    exact ⟨isFinite_ofParts hx, fun _ => rfl⟩

theorem settled_int {n : Int} (h : Fits (.int n)) : Settled fun _ => .ok (.int n) := by
  intro rest m hm
  cases hm
  exact ⟨h, fun _ => rfl⟩

theorem settled_ite {p : Prop} [Decidable p] {f g : List Char → Except Fault Number}
    (hf : p → Settled f) (hg : ¬ p → Settled g) :
    Settled fun rest => if p then f rest else g rest := by
  by_cases hp : p
  · simpa only [if_pos hp] using hf hp
  · simpa only [if_neg hp] using hg hp

theorem settled_scaled (negative : Bool) (significand : Nat) (start : Int)
    (exponent : Option (Bool × List Char)) :
    Settled (Numeral.scaled negative significand start exponent) := by
  unfold Numeral.scaled
  split
  · exact settled_float negative significand start
  · split
    · refine settled_ite ?_ fun _ => settled_float negative 0 0
      intro _ _ _ h
      cases h
    · exact settled_float negative significand _

theorem absorb_lt {n : Nat} (h : n < UInt64.size) (ds : List Char) :
    (Numeral.absorb n ds).1 < UInt64.size := by
  induction ds generalizing n with
  | nil => exact h
  | cons d ds ih =>
    rw [Numeral.absorb]
    split
    · next hlt => exact ih hlt
    · exact h

/-- The value of a literal without a point and an exponent whose digits 64 bits hold. -/
theorem value_whole (negative : Bool) {whole : List Char} {n : Nat}
    (h : Numeral.absorb 0 whole = (n, [])) :
    Numeral.value ⟨negative, whole, none, none⟩ = fun rest =>
      if negative = true then
        if n = 0 ∨ 0x8000000000000000 < n then Numeral.float true n 0 rest
        else .ok (.int (-(n : Int)))
      else .ok (.int n) := by
  funext rest
  rw [Numeral.value, h]

theorem settled_whole (negative : Bool) {whole : List Char} {n : Nat}
    (h : Numeral.absorb 0 whole = (n, [])) :
    Settled (Numeral.value ⟨negative, whole, none, none⟩) := by
  have hlt : n < UInt64.size := by
    have hwhole := absorb_lt (by decide : 0 < UInt64.size) whole
    rwa [h] at hwhole
  rw [value_whole negative h]
  refine settled_ite (fun _ => settled_ite (fun _ => settled_float _ _ _) fun hn => ?_) fun _ => ?_
  · exact settled_int (by simp only [Fits]; omega)
  · exact settled_int (by simp only [Fits, UInt64.size] at hlt ⊢; omega)

/-- The value of any other literal, in which digits in front of the point may be too many. -/
theorem value_scaled {numeral : Numeral} {n : Nat} {beyond : List Char}
    (hwhole : Numeral.absorb 0 numeral.whole = (n, beyond))
    (h : numeral.fraction = none → numeral.exponent = none → beyond ≠ []) :
    numeral.value =
      let places := numeral.fraction.getD []
      let (significand, left) := Numeral.absorb n places
      Numeral.scaled numeral.negative significand (beyond.length + left.length - places.length)
        numeral.exponent := by
  funext rest
  unfold Numeral.value
  rw [hwhole]
  dsimp only
  split
  · next hfraction hexponent => exact absurd rfl (h hfraction hexponent)
  · rfl

theorem settled_value (numeral : Numeral) : Settled numeral.value := by
  cases hwhole : Numeral.absorb 0 numeral.whole with
  | mk n beyond =>
    by_cases hplain : numeral.fraction = none ∧ numeral.exponent = none ∧ beyond = []
    · obtain ⟨negative, whole, fraction, exponent⟩ := numeral
      obtain ⟨rfl, rfl, rfl⟩ := hplain
      exact settled_whole negative hwhole
    · rw [value_scaled hwhole fun hf he hb => hplain ⟨hf, he, hb⟩]
      exact settled_scaled _ _ _ _

theorem le_digits (n : Nat) (ds : List Char) :
    n ≤ ds.foldl (fun n d => 10 * n + digitValue d) n := by
  induction ds generalizing n with
  | nil => exact Nat.le_refl n
  | cons d ds ih =>
    have hstep : n ≤ 10 * n + digitValue d := by omega
    exact Nat.le_trans hstep (ih _)

/-- Digits that 64 bits hold are all counted in. -/
theorem absorb_eq {n : Nat} {ds : List Char}
    (h : ds.foldl (fun n d => 10 * n + digitValue d) n < UInt64.size) :
    Numeral.absorb n ds = (ds.foldl (fun n d => 10 * n + digitValue d) n, []) := by
  induction ds generalizing n with
  | nil => rfl
  | cons d ds ih =>
    have hstep : 10 * n + digitValue d < UInt64.size := Nat.lt_of_le_of_lt (le_digits _ ds) h
    rw [Numeral.absorb, if_pos hstep, ih h]
    rfl

end Screenwright.Proofs.Numerals
