import Mathlib.Data.List.DropRight
import Screenwright.Text.Blank

namespace Screenwright.Proofs.Stripping
open Text

variable {p : Char → Bool} {cs : List Char}

/-- Only what may go is taken away at either end. -/
theorem exists_stripWhile (p : Char → Bool) (cs : List Char) :
    ∃ front back, cs = front ++ stripWhile p cs ++ back ∧ (∀ c ∈ front, p c = true) ∧
      ∀ c ∈ back, p c = true := by
  refine ⟨cs.takeWhile p, (cs.dropWhile p).rtakeWhile p, ?_, ?_, ?_⟩
  · have hback : stripWhile p cs ++ (cs.dropWhile p).rtakeWhile p = cs.dropWhile p :=
      List.rdropWhile_append_rtakeWhile ..
    rw [List.append_assoc, hback, List.takeWhile_append_dropWhile]
  · exact fun c hc => List.mem_takeWhile_imp hc
  · exact fun c hc => List.mem_rtakeWhile_imp hc

theorem mem_of_mem_stripWhile {c : Char} (h : c ∈ stripWhile p cs) : c ∈ cs := by
  obtain ⟨front, back, hcs, _, _⟩ := exists_stripWhile p cs
  rw [hcs]
  exact List.mem_append_left _ (List.mem_append_right _ h)

theorem head?_stripWhile {c : Char} (h : (stripWhile p cs).head? = some c) : p c = false := by
  obtain ⟨tail, hstrip⟩ := List.head?_eq_some_iff.mp h
  obtain ⟨more, hmore⟩ : stripWhile p cs <+: cs.dropWhile p := List.rdropWhile_prefix ..
  have hhead := List.head?_dropWhile_not p cs
  rwa [← hmore, hstrip] at hhead

theorem getLast?_stripWhile {c : Char} (h : (stripWhile p cs).getLast? = some c) :
    p c = false := by
  have hne : stripWhile p cs ≠ [] := fun hnil => by simp [hnil] at h
  rw [List.getLast?_eq_some_getLast hne] at h
  cases h
  exact Bool.eq_false_iff.mpr (List.rdropWhile_last_not p (cs.dropWhile p) hne)

theorem stripWhile_stripWhile (p : Char → Bool) (cs : List Char) :
    stripWhile p (stripWhile p cs) = stripWhile p cs := by
  have hfront : (stripWhile p cs).dropWhile p = stripWhile p cs := by
    cases hstrip : stripWhile p cs with
    | nil => rfl
    | cons c tail =>
      have hc : p c = false := head?_stripWhile (by rw [hstrip, List.head?_cons])
      exact List.dropWhile_cons_of_neg (Bool.eq_false_iff.mp hc)
  have hback : dropEndWhile p (stripWhile p cs) = stripWhile p cs :=
    List.rdropWhile_idempotent p (cs.dropWhile p)
  rw [stripWhile, hfront, hback]

/-- What is cut off at the end does not reach beyond text that stays. -/
theorem dropEndWhile_append {core : List Char} (hne : core ≠ []) (hcore : ∀ c ∈ core, p c = false)
    (rest : List Char) : dropEndWhile p (core ++ rest) = core ++ dropEndWhile p rest := by
  have hkept : core.reverse.dropWhile p = core.reverse := by
    obtain ⟨last, init, hrev⟩ := List.exists_cons_of_ne_nil (List.reverse_ne_nil_iff.mpr hne)
    have hlast : last ∈ core := List.mem_reverse.mp (hrev ▸ List.mem_cons_self)
    rw [hrev, List.dropWhile_cons_of_neg (Bool.eq_false_iff.mp (hcore last hlast))]
  rw [dropEndWhile, dropEndWhile, List.reverse_append, List.dropWhile_append, hkept]
  split
  · next hnil => simp [List.isEmpty_iff.mp hnil]
  · simp

/-- Stripping a text that stays of what may go in front of it, and behind it as far as it can. -/
theorem stripWhile_append {front core : List Char} (hfront : ∀ c ∈ front, p c = true)
    (hne : core ≠ []) (hcore : ∀ c ∈ core, p c = false) (rest : List Char) :
    stripWhile p (front ++ core ++ rest) = core ++ dropEndWhile p rest := by
  have hfirst : (core ++ rest).dropWhile p = core ++ rest := by
    obtain ⟨c, tail, rfl⟩ := List.exists_cons_of_ne_nil hne
    exact List.dropWhile_cons_of_neg (Bool.eq_false_iff.mp (hcore c List.mem_cons_self))
  rw [stripWhile, List.append_assoc, List.dropWhile_append_of_pos hfront, hfirst,
    dropEndWhile_append hne hcore]

end Screenwright.Proofs.Stripping
