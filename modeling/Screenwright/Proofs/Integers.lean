import Mathlib.Data.Nat.Digits.Defs
import Screenwright.Proofs.Stripping
import Screenwright.Style.Length

namespace Screenwright.Proofs.Integers
open Style Text Stripping

/-- The number that decimal digits denote. -/
def denoted (ds : List Char) : Nat := Nat.ofDigits 10 (ds.map digitValue).reverse

/-- What a sign, or none at all, makes of a number. -/
inductive Signs : List Char → Nat → Int → Prop
  | none {n : Nat} : Signs [] n n
  | plus {n : Nat} : Signs ['+'] n n
  | minus {n : Nat} : Signs ['-'] n (-n)

/-- Digits that go on as long as they can. -/
structure Run (ds rest : List Char) : Prop where
  nonempty : ds ≠ []
  digits : ∀ c ∈ ds, c.isDigit = true
  ends : ∀ c, rest.head? = some c → c.isDigit = false

/-- Text that is an integer up to the end of its digits. -/
def Leads (cs : List Char) (v : Int) : Prop :=
  ∃ sign ds rest, cs = sign ++ ds ++ rest ∧ Run ds rest ∧ Signs sign (denoted ds) v

/-- Behind blanks, a text starts with an integer. -/
def Starts (s : String) (v : Int) : Prop :=
  ∃ blanks cs, s.toList = blanks ++ cs ∧ (∀ c ∈ blanks, isBlank c = true) ∧ Leads cs v

/-- A reading of the integer that a text starts with, if there is one and it fits into 64 bits. -/
structure Reads (s : String) (r : Option Int) : Prop where
  held : ∀ v, Starts s v → -2 ^ 63 ≤ v → v ≤ 2 ^ 63 - 1 → r = some v
  beyond : ∀ v, Starts s v → v < -2 ^ 63 ∨ 2 ^ 63 - 1 < v → r = none
  absent : (∀ v, ¬ Starts s v) → r = none

variable {cs ds rest sign : List Char} {s : String} {n : Nat} {v : Int}

theorem decimalValue_eq (ds : List Char) : decimalValue ds = denoted ds := by
  rw [denoted, Nat.ofDigits_eq_foldr, List.foldr_reverse, List.foldl_map, decimalValue]
  congr 1
  funext n d
  simp only [Nat.cast_id]
  omega

theorem isBlank_of_isDigit {c : Char} (h : c.isDigit = true) : isBlank c = false := by
  have hc := Char.isDigit_iff_toNat.mp h
  simp only [isBlank, Bool.or_eq_false_iff, Bool.and_eq_false_iff, decide_eq_false_iff_not,
    Char.reduceToNat] at hc ⊢
  omega

theorem Run.takeWhile (h : Run ds rest) : (ds ++ rest).takeWhile isDigit = ds := by
  have hds : ∀ c ∈ ds, isDigit c = true := h.digits
  rw [List.takeWhile_append_of_pos hds]
  cases rest with
  | nil => simp
  | cons c rest =>
    have hc : isDigit c = false := h.ends c rfl
    simp [hc]

theorem leadingDigits_of_run (h : Run ds rest) :
    leadingDigits (ds ++ rest) = if denoted ds ≤ maxInteger then some (denoted ds) else none := by
  rw [leadingDigits, h.takeWhile]
  split
  · exact absurd rfl h.nonempty
  · rw [decimalValue_eq]

theorem run_of_leadingDigits (h : leadingDigits cs = some n) :
    ∃ ds rest, cs = ds ++ rest ∧ Run ds rest ∧ denoted ds = n := by
  refine ⟨cs.takeWhile isDigit, cs.dropWhile isDigit, List.takeWhile_append_dropWhile.symm, ?_, ?_⟩
  · constructor
    case nonempty =>
      intro hnil
      simp [leadingDigits, hnil] at h
    case digits => exact fun c hc => List.mem_takeWhile_imp hc
    case ends =>
      intro c hc
      have hhead := List.head?_dropWhile_not isDigit cs
      rwa [hc] at hhead
  · rw [leadingDigits] at h
    split at h
    · cases h
    · split at h
      · rw [← decimalValue_eq]
        exact Option.some.inj h
      · cases h

theorem Run.head {c : Char} {cs : List Char} (h : Run ds rest) (hc : ds ++ rest = c :: cs) :
    c.isDigit = true := by
  obtain ⟨d, tail, rfl⟩ := List.exists_cons_of_ne_nil h.nonempty
  cases hc
  exact h.digits c List.mem_cons_self

theorem map_cast (o : Option Nat) (f : Int → Int) :
    (do let n ← o; pure (n : Int) : Option Int).map f = o.map fun n : Nat => f n := by
  cases o <;> rfl

/-- Stripped text that starts with an integer has it read if its digits count. -/
theorem leadingInt_of_strip (hs : stripWhile isBlank s.toList = sign ++ ds ++ rest)
    (h : Run ds rest) (hv : Signs sign (denoted ds) v) :
    leadingInt s = if denoted ds ≤ maxInteger then some v else none := by
  have hread := leadingDigits_of_run h
  rw [leadingInt, hs]
  cases hv with
  | none =>
    rw [List.nil_append]
    split
    · next hcs => exact absurd (h.head hcs) (by decide)
    · next hcs => exact absurd (h.head hcs) (by decide)
    · rw [map_cast, hread]
      split <;> rfl
  | plus =>
    change (do let n ← leadingDigits (ds ++ rest); pure (n : Int) : Option Int).map _ = _
    rw [map_cast, hread]
    split <;> rfl
  | minus =>
    change (do let n ← leadingDigits (ds ++ rest); pure (n : Int) : Option Int).map _ = _
    rw [map_cast, hread]
    split <;> rfl

theorem leads_of_leadingInt (h : leadingInt s = some v) :
    Leads (stripWhile isBlank s.toList) v := by
  rw [leadingInt] at h
  generalize stripWhile isBlank s.toList = cs at h ⊢
  split at h
  all_goals
    rw [map_cast] at h
    obtain ⟨n, hn, rfl⟩ := Option.map_eq_some_iff.mp h
    obtain ⟨ds, rest, rfl, hrun, rfl⟩ := run_of_leadingDigits hn
  · exact ⟨['-'], ds, rest, rfl, hrun, .minus⟩
  · exact ⟨['+'], ds, rest, rfl, hrun, .plus⟩
  · exact ⟨[], ds, rest, rfl, hrun, .none⟩

/-- An integer is not blank, so stripping leaves it in front. -/
theorem strip_of_starts (h : Starts s v) : Leads (stripWhile isBlank s.toList) v := by
  obtain ⟨blanks, cs, hs, hblanks, sign, ds, rest, rfl, hrun, hv⟩ := h
  have hne : sign ++ ds ≠ [] := fun hnil => hrun.nonempty (List.append_eq_nil_iff.mp hnil).2
  have hcore : ∀ c ∈ sign ++ ds, isBlank c = false := by
    intro c hc
    rcases List.mem_append.mp hc with hc | hc
    · cases hv <;> simp at hc <;> subst hc <;> decide
    · exact isBlank_of_isDigit (hrun.digits c hc)
  rw [hs, ← List.append_assoc, stripWhile_append hblanks hne hcore]
  refine ⟨sign, ds, _, rfl, ⟨hrun.nonempty, hrun.digits, fun c hc => hrun.ends c ?_⟩, hv⟩
  obtain ⟨tail, htail⟩ := List.head?_eq_some_iff.mp hc
  obtain ⟨more, hmore⟩ : dropEndWhile isBlank rest <+: rest := List.rdropWhile_prefix ..
  rw [← hmore, htail]
  rfl

theorem starts_of_strip (h : Leads (stripWhile isBlank s.toList) v) : Starts s v := by
  obtain ⟨sign, ds, rest, hs, hrun, hv⟩ := h
  obtain ⟨front, back, hcs, hfront, hback⟩ := exists_stripWhile isBlank s.toList
  rw [hs, List.append_assoc, List.append_assoc] at hcs
  refine ⟨front, _, hcs, hfront, sign, ds, rest ++ back, by simp, ?_, hv⟩
  refine ⟨hrun.nonempty, hrun.digits, fun c hc => ?_⟩
  cases rest with
  | cons d rest => exact hrun.ends c hc
  | nil =>
    have hblank : isBlank c = true := hback c (List.mem_of_mem_head? hc)
    by_contra hd
    rw [isBlank_of_isDigit (Bool.eq_true_of_not_eq_false hd)] at hblank
    cases hblank

/-- Only the integers between the ends of 64 bits are read; the ends are not alike. -/
theorem leadingInt_of_starts (h : Starts s v) :
    leadingInt s = if -2 ^ 63 < v ∧ v ≤ 2 ^ 63 - 1 then some v else none := by
  obtain ⟨sign, ds, rest, hs, hrun, hv⟩ := strip_of_starts h
  have hmax : denoted ds ≤ maxInteger ↔ -2 ^ 63 < v ∧ v ≤ 2 ^ 63 - 1 := by
    unfold maxInteger
    cases hv <;> omega
  rw [leadingInt_of_strip hs hrun hv]
  simp only [hmax]

theorem leadingInt_of_not_starts (h : ∀ v, ¬ Starts s v) : leadingInt s = none :=
  Option.eq_none_iff_forall_ne_some.mpr fun v hv =>
    h v (starts_of_strip (leads_of_leadingInt hv))

theorem leadingInt_of_starts_least (h : Starts s (-2 ^ 63)) : leadingInt s = none := by
  rw [leadingInt_of_starts h, if_neg (by decide)]

theorem not_reads_of_starts_least (h : Starts s (-2 ^ 63)) : ¬ Reads s (leadingInt s) := by
  intro hreads
  have hheld := hreads.held _ h (by decide) (by decide)
  rw [leadingInt_of_starts_least h] at hheld
  cases hheld

/-- Blanks around a text do not matter to the integer that it starts with. -/
theorem leadingInt_trim (s : String) : leadingInt (trim s) = leadingInt s := by
  rw [leadingInt, trim, String.toList_ofList, stripWhile_stripWhile, leadingInt]

theorem lengthOf_text (s : String) (fallback : Binary64) :
    lengthOf (some (.text s)) fallback = ((leadingInt s).map Binary64.ofInt).getD fallback := rfl

/-- A text that starts with the smallest integer of 64 bits is read as one without an integer, and
every other text as it should be. Texts that start with the same integer are read alike, whatever
follows it. -/
theorem leadingInt_reads (s : String) :
    (Reads s (leadingInt s) ↔ ¬ Starts s (-2 ^ 63)) ∧
      (Starts s (-2 ^ 63) → leadingInt s = none) ∧
      ∀ t v, Starts s v → Starts t v → leadingInt t = leadingInt s := by
  refine ⟨⟨fun hreads h => not_reads_of_starts_least h hreads, fun h => ?_⟩,
    leadingInt_of_starts_least, fun t v hs ht => ?_⟩
  · constructor
    case held =>
      intro v hv hlow hhigh
      have hne : v ≠ -2 ^ 63 := by
        rintro rfl
        exact h hv
      rw [leadingInt_of_starts hv, if_pos ⟨by omega, hhigh⟩]
    case beyond =>
      intro v hv hout
      rw [leadingInt_of_starts hv, if_neg (by omega)]
    case absent => exact leadingInt_of_not_starts
  · rw [leadingInt_of_starts hs, leadingInt_of_starts ht]

/-- Leading zeros do not count, and digits end before a point. -/
example : leadingInt "\u00a0-007.5em" = some (-7) := rfl

theorem leadingInt_least :
    Starts "-9223372036854775808" (-2 ^ 63) ∧ leadingInt "-9223372036854775808" = none ∧
      ¬ Reads "-9223372036854775808" (leadingInt "-9223372036854775808") := by
  have hrun : Run "9223372036854775808".toList [] :=
    ⟨by decide, List.all_eq_true.mp rfl, nofun⟩
  have hleads : Leads "-9223372036854775808".toList (-2 ^ 63) :=
    ⟨['-'], "9223372036854775808".toList, [], rfl, hrun, .minus⟩
  have hstarts : Starts "-9223372036854775808" (-2 ^ 63) := ⟨[], _, rfl, nofun, hleads⟩
  exact ⟨hstarts, leadingInt_of_starts_least hstarts, not_reads_of_starts_least hstarts⟩

end Screenwright.Proofs.Integers
