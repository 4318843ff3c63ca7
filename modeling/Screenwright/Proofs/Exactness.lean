import Mathlib.Algebra.Group.Nat.Defs
import Screenwright.Number.Numeral

namespace Screenwright.Proofs.Exactness
open Binary64

variable {negative : Bool} {w e q : Nat}

theorem word_ofWord (negative : Bool) (h : w < signBit) :
    (ofWord negative w).word = if negative then signBit + w else w := by
  refine UInt64.toNat_ofNat_of_lt' ?_
  simp only [signBit, UInt64.size] at h ⊢
  split <;> omega

theorem negative_ofWord (h : w < signBit) : (ofWord negative w).negative = negative := by
  simp only [Binary64.negative, word_ofWord negative h]
  cases negative <;> simp [h]

theorem biased_ofWord (h : w < signBit) : (ofWord negative w).biased = w / leadingBit := by
  simp only [biased, word_ofWord negative h, lastExponent]
  simp only [signBit, leadingBit] at h ⊢
  split <;> omega

theorem fraction_ofWord (h : w < signBit) : (ofWord negative w).fraction = w % leadingBit := by
  simp only [fraction, word_ofWord negative h]
  simp only [signBit, leadingBit] at h ⊢
  split <;> omega

theorem isFinite_ofWord (negative : Bool) (h : w < lastExponent * leadingBit) :
    (ofWord negative w).isFinite = true := by
  have hw : w < signBit := by
    simp only [lastExponent, leadingBit, signBit] at h ⊢
    omega
  simp only [isFinite, biased_ofWord hw, decide_eq_true_eq]
  simp only [lastExponent, leadingBit] at h ⊢
  omega

/-- A word of an exponent and a significand with its leading one, which carries into the
exponent. -/
structure Normal (e q : Nat) : Prop where
  leading : leadingBit ≤ q
  short : q < 2 * leadingBit
  small : e + 2 < lastExponent

theorem Normal.word_lt (h : Normal e q) : e * leadingBit + q < lastExponent * leadingBit := by
  obtain ⟨_, hq, he⟩ := h
  simp only [lastExponent, leadingBit] at hq he ⊢
  omega

theorem Normal.lt_signBit (h : Normal e q) : e * leadingBit + q < signBit :=
  Nat.lt_of_lt_of_le h.word_lt (by decide)

/-- Such a word stands for its significand times a power of two. -/
theorem Normal.magnitude (h : Normal e q) (negative : Bool) :
    (ofWord negative (e * leadingBit + q)).magnitude = q * 2 ^ e := by
  have hbiased : (ofWord negative (e * leadingBit + q)).biased = e + 1 := by
    rw [biased_ofWord h.lt_signBit]
    obtain ⟨hlow, hq, _⟩ := h
    simp only [leadingBit] at hlow hq ⊢
    omega
  have hfraction : (ofWord negative (e * leadingBit + q)).fraction = q - leadingBit := by
    rw [fraction_ofWord h.lt_signBit]
    obtain ⟨hlow, hq, _⟩ := h
    simp only [leadingBit] at hlow hq ⊢
    omega
  have hsignificand : leadingBit + (q - leadingBit) = q := Nat.add_sub_cancel' h.leading
  rw [Binary64.magnitude, significand, scale, hbiased, hfraction, if_neg (Nat.succ_ne_zero e),
    hsignificand, Nat.add_sub_cancel]
  rfl

theorem roundEven_mul (n : Nat) {d : Nat} (hd : 0 < d) : roundEven (n * d) d = n := by
  simp [roundEven, Nat.mul_div_cancel _ hd, Nat.not_lt.mpr (Nat.le_of_lt hd)]
  omega

theorem one_eq {k : Nat} (h : 1074 = k) : one = 2 ^ k := by
  have hpow : Nat.pow 2 k = 2 ^ k := rfl
  delta one
  rw [h, hpow]

theorem one_pos : 0 < one := by
  obtain ⟨k, hk⟩ : ∃ k, 1074 = k := ⟨_, rfl⟩
  rw [one_eq hk]
  exact Nat.two_pow_pos k

theorem leadingBit_eq : leadingBit = 2 ^ 52 := rfl

theorem log2_shift {m k : Nat} (hm : m ≠ 0) : (m * 2 ^ k).log2 = m.log2 + k := by
  have hpos : 0 < 2 ^ k := Nat.two_pow_pos k
  refine (Nat.log2_eq_iff (Nat.mul_ne_zero hm (Nat.ne_of_gt hpos))).mpr ⟨?_, ?_⟩
  · rw [Nat.pow_add]
    exact Nat.mul_le_mul_right _ (Nat.log2_self_le hm)
  · rw [Nat.add_right_comm, Nat.pow_add]
    exact Nat.mul_lt_mul_of_pos_right Nat.lt_log2_self hpos

/-- A number of no more than 53 bits, shifted up to that many, with the exponent that this takes. -/
theorem exists_normal {m k : Nat} (hk : 1074 = k) (hm : m ≠ 0) (hshort : m < 2 * leadingBit) :
    Normal (m.log2 + k - 52) (m * 2 ^ (52 - m.log2)) ∧
      m * 2 ^ (52 - m.log2) * 2 ^ (m.log2 + k - 52) = m * 2 ^ k := by
  have hlog : m.log2 < 53 := (Nat.log2_lt hm).mpr hshort
  refine ⟨⟨?_, ?_, ?_⟩, ?_⟩
  · calc leadingBit = 2 ^ m.log2 * 2 ^ (52 - m.log2) := by
          rw [← Nat.pow_add, Nat.add_sub_cancel' (by omega), leadingBit_eq]
      _ ≤ m * 2 ^ (52 - m.log2) := Nat.mul_le_mul_right _ (Nat.log2_self_le hm)
  · calc m * 2 ^ (52 - m.log2)
        < 2 ^ (m.log2 + 1) * 2 ^ (52 - m.log2) :=
          Nat.mul_lt_mul_of_pos_right Nat.lt_log2_self (Nat.two_pow_pos _)
      _ = 2 ^ 53 := by
          rw [← Nat.pow_add]
          congr 1
          omega
      _ = 2 * leadingBit := rfl
  · simp only [lastExponent]
    omega
  · rw [Nat.mul_assoc, ← Nat.pow_add]
    congr 2
    omega

/-- A number of no more than 53 bits is not rounded. -/
theorem nearest_exact {m : Nat} (hm : m ≠ 0) (hshort : m < 2 * leadingBit) (negative : Bool) :
    ∃ e q, Normal e q ∧ q * 2 ^ e = m * one ∧
      nearest negative m 1 = some (ofWord negative (e * leadingBit + q)) := by
  obtain ⟨k, hk⟩ : ∃ k, 1074 = k := ⟨_, rfl⟩
  obtain ⟨hnormal, hvalue⟩ := exists_normal hk hm hshort
  have hpow (n : Nat) : Nat.pow 2 n = 2 ^ n := rfl
  refine ⟨_, _, hnormal, by rw [one_eq hk, hvalue], ?_⟩
  unfold nearest
  simp only [one_eq hk, Nat.div_one, log2_shift hm, Nat.one_mul, hpow]
  rw [← hvalue, roundEven_mul _ (Nat.two_pow_pos _), if_pos hnormal.word_lt]

theorem roundEven_le (num den : Nat) : roundEven num den ≤ num / den + 1 := by
  unfold roundEven
  dsimp only
  split <;> omega

/-- A number of no more than 64 bits is not too large. -/
theorem exists_nearest {m : Nat} (h : m < 2 ^ 64) (negative : Bool) :
    ∃ x, nearest negative m 1 = some x := by
  obtain ⟨k, hk⟩ : ∃ k, 1074 = k := ⟨_, rfl⟩
  have hpow (n : Nat) : Nat.pow 2 n = 2 ^ n := rfl
  have hlog : (m * 2 ^ k).log2 ≤ 63 + k := by
    by_cases hm : m = 0
    · simp [hm]
    · have hlt := (Nat.log2_lt hm).mpr h
      rw [log2_shift hm]
      omega
  have hdiv : m * 2 ^ k / 2 ^ ((m * 2 ^ k).log2 - 52) < 2 * leadingBit := by
    refine Nat.div_lt_of_lt_mul (Nat.lt_of_lt_of_le Nat.lt_log2_self ?_)
    calc 2 ^ ((m * 2 ^ k).log2 + 1) ≤ 2 ^ ((m * 2 ^ k).log2 - 52 + 53) :=
          Nat.pow_le_pow_right (by decide) (by omega)
      _ = 2 ^ ((m * 2 ^ k).log2 - 52) * (2 * leadingBit) := by rw [Nat.pow_add]; rfl
  have hround := roundEven_le (m * 2 ^ k) (2 ^ ((m * 2 ^ k).log2 - 52))
  unfold nearest
  simp only [one_eq hk, Nat.div_one, Nat.one_mul, hpow]
  refine ⟨_, if_pos ?_⟩
  simp only [leadingBit, lastExponent] at *
  omega

theorem truncate_ofWord (h : Normal e q) {m : Nat} (hvalue : q * 2 ^ e = m * one)
    (negative : Bool) :
    (ofWord negative (e * leadingBit + q)).isWhole = true ∧
      (ofWord negative (e * leadingBit + q)).truncate = if negative then -(m : Int) else m := by
  have hmagnitude := h.magnitude negative
  rw [hvalue] at hmagnitude
  constructor
  · simp [isWhole, isFinite_ofWord negative h.word_lt, hmagnitude]
  · rw [truncate, negative_ofWord h.lt_signBit, hmagnitude, Nat.mul_div_cancel _ one_pos]

/-- Integers of no more than 53 bits are whole doubles, and keep their values. -/
theorem ofInt_exact {n : Int} (h : n.natAbs < 2 * leadingBit) :
    (ofInt n).isWhole = true ∧ (ofInt n).truncate = n := by
  by_cases hn : n = 0
  · subst hn
    decide +kernel
  · obtain ⟨e, q, hnormal, hvalue, hnearest⟩ :=
      nearest_exact (Int.natAbs_ne_zero.mpr hn) h (decide (n < 0))
    obtain ⟨hwhole, htruncate⟩ := truncate_ofWord hnormal hvalue (decide (n < 0))
    rw [ofInt, hnearest, Option.getD_some]
    refine ⟨hwhole, htruncate.trans ?_⟩
    simp only [decide_eq_true_eq]
    split <;> omega

/-- An integer of no more than 15 digits is printed as it is. -/
theorem plain_ofInt {n : Int} (h : n.natAbs < 10 ^ 15) : (ofInt n).plain = toString n := by
  have hshort : n.natAbs < 2 * leadingBit := Nat.lt_trans h (by decide)
  obtain ⟨hwhole, htruncate⟩ := ofInt_exact hshort
  rw [plain, if_pos ⟨hwhole, htruncate.symm ▸ h⟩, htruncate]

end Screenwright.Proofs.Exactness
