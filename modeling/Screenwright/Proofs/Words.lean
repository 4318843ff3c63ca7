import Screenwright.Text.Blank

namespace Screenwright.Proofs.Words
open Text

/-- A text of words with white space between them, and perhaps in front and behind. -/
inductive Splits : List Char → List String → Prop
  | blank {gap} : (∀ c ∈ gap, isBlank c = true) → Splits gap []
  | word {gap w rest ws} : (∀ c ∈ gap, isBlank c = true) → w ≠ "" →
      (∀ c ∈ w.toList, isBlank c = false) → (∀ c, rest.head? = some c → isBlank c = true) →
      Splits rest ws → Splits (gap ++ w.toList ++ rest) (w :: ws)

variable {p : Char → Bool} {c : Char} {cs gap : List Char} {w : String} {ws : List String}

/-- Without a place to split at, a text is one piece. -/
theorem pieces_eq (h : ∀ c ∈ cs, p c = false) : pieces p cs = [cs] := by
  induction cs with
  | nil => rfl
  | cons c cs ih =>
    obtain ⟨hc, hcs⟩ := List.forall_mem_cons.mp h
    simp [pieces, hc, ih hcs]

theorem pieces_ne_nil (p : Char → Bool) (cs : List Char) : pieces p cs ≠ [] := by
  cases cs with
  | nil => simp [pieces]
  | cons c cs =>
    rw [pieces]
    split
    · simp
    · split <;> simp

/-- The pieces on both sides of a place to split at. -/
theorem pieces_append (hc : p c = true) (cs rest : List Char) :
    pieces p (cs ++ c :: rest) = pieces p cs ++ pieces p rest := by
  induction cs with
  | nil => simp [pieces, hc]
  | cons d cs ih =>
    rw [List.cons_append, pieces, pieces, ih]
    split
    · rfl
    · cases hpieces : pieces p cs with
      | nil => exact absurd hpieces (pieces_ne_nil p cs)
      | cons w ws => rfl

theorem words_append_blank (hc : isBlank c = true) (cs rest : List Char) :
    words (String.ofList (cs ++ c :: rest)) =
      words (String.ofList cs) ++ words (String.ofList rest) := by
  simp [words, pieces_append hc]

theorem words_nil : words (String.ofList []) = [] := by
  simp [words, pieces]

theorem words_cons_blank (hc : isBlank c = true) (cs : List Char) :
    words (String.ofList (c :: cs)) = words (String.ofList cs) := by
  have h := words_append_blank hc [] cs
  rwa [words_nil] at h

theorem words_blank_append (hgap : ∀ c ∈ gap, isBlank c = true) (cs : List Char) :
    words (String.ofList (gap ++ cs)) = words (String.ofList cs) := by
  induction gap with
  | nil => rfl
  | cons c gap ih =>
    obtain ⟨hc, hgap⟩ := List.forall_mem_cons.mp hgap
    rw [List.cons_append, words_cons_blank hc, ih hgap]

theorem words_word (hne : w ≠ "") (h : ∀ c ∈ w.toList, isBlank c = false) : words w = [w] := by
  have hlist : w.toList.isEmpty = false := by simpa using hne
  simp [words, pieces_eq h, hlist]

/-- However a text is taken apart, its words are those that it is split into. -/
theorem Splits.words_eq (h : Splits cs ws) : words (String.ofList cs) = ws := by
  induction h with
  | @blank gap hgap =>
    have hwords := words_blank_append hgap []
    rwa [List.append_nil, words_nil] at hwords
  | @word gap w rest ws hgap hne hw hrest _ ih =>
    rw [List.append_assoc, words_blank_append hgap]
    cases rest with
    | nil =>
      rw [words_nil] at ih
      rw [List.append_nil, String.ofList_toList, words_word hne hw, ← ih]
    | cons c rest =>
      have hc : isBlank c = true := hrest c rfl
      rw [words_cons_blank hc] at ih
      rw [words_append_blank hc, String.ofList_toList, words_word hne hw, ih]
      rfl

theorem Splits.cons_blank (hc : isBlank c = true) (h : Splits cs ws) : Splits (c :: cs) ws := by
  cases h with
  | blank hgap => exact .blank (List.forall_mem_cons.mpr ⟨hc, hgap⟩)
  | word hgap hne hw hrest h =>
    rw [← List.cons_append, ← List.cons_append]
    exact .word (List.forall_mem_cons.mpr ⟨hc, hgap⟩) hne hw hrest h

theorem Splits.cons_word {core rest : List Char} (hne : core ≠ [])
    (hcore : ∀ c ∈ core, isBlank c = false)
    (hrest : ∀ c, rest.head? = some c → isBlank c = true) (h : Splits rest ws) :
    Splits (core ++ rest) (String.ofList core :: ws) := by
  have hnil : ∀ c ∈ ([] : List Char), isBlank c = true := nofun
  have hword := @Splits.word [] (String.ofList core) rest ws hnil (by simpa using hne)
    (by simpa using hcore) hrest h
  simpa using hword

theorem Splits.cons_solid (hc : isBlank c = false) (h : Splits cs ws) :
    ∃ vs, Splits (c :: cs) vs := by
  have halone (hrest : ∀ d, cs.head? = some d → isBlank d = true) : ∃ vs, Splits (c :: cs) vs :=
    ⟨_, .cons_word (List.cons_ne_nil c []) (by simpa using hc) hrest h⟩
  cases h with
  | blank hgap => exact halone fun d hd => hgap d (List.mem_of_mem_head? hd)
  | @word gap w rest ws hgap hne hw hrest h =>
    cases gap with
    | cons d gap =>
      refine halone fun e he => ?_
      cases he
      exact hgap d List.mem_cons_self
    | nil =>
      have hcore : ∀ d ∈ c :: w.toList, isBlank d = false := List.forall_mem_cons.mpr ⟨hc, hw⟩
      exact ⟨_, .cons_word (List.cons_ne_nil c w.toList) hcore hrest h⟩

theorem exists_splits (cs : List Char) : ∃ ws, Splits cs ws := by
  induction cs with
  | nil => exact ⟨[], .blank nofun⟩
  | cons c cs ih =>
    obtain ⟨ws, h⟩ := ih
    cases hc : isBlank c with
    | true => exact ⟨ws, h.cons_blank hc⟩
    | false => exact h.cons_solid hc

theorem splits_iff {s : String} : Splits s.toList ws ↔ ws = words s := by
  have hwords {ws : List String} (h : Splits s.toList ws) : words s = ws := by
    simpa using h.words_eq
  constructor
  · exact fun h => (hwords h).symm
  · rintro rfl
    obtain ⟨ws, h⟩ := exists_splits s.toList
    rwa [hwords h]

end Screenwright.Proofs.Words
