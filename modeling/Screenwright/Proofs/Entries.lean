import Mathlib.Data.List.Induction
import Screenwright.Files.FileSystem

namespace Screenwright.Proofs.Entries
open Files FileSystem

theorem get?_root (fs : FileSystem) : fs.get? [] = some .directory := by
  simp [get?]

theorem get?_put {fs : FileSystem} {loc : Location} {e : Entry} (h : fs.admits loc e = true)
    (other : Location) :
    (fs.put loc e).get? other = if other = loc then some e else fs.get? other := by
  have hne : loc ≠ [] := by
    rintro rfl
    simp [admits] at h
  by_cases ho : other = []
  · subst ho
    rw [get?_root, get?_root, if_neg (Ne.symm hne)]
  · unfold get?
    rw [if_neg ho, if_neg ho, put, dif_pos h, Keyed.find?_put]
    split <;> simp

theorem get?_removeTree {loc : Location} (h : loc ≠ []) (fs : FileSystem) (other : Location) :
    (fs.removeTree loc).get? other = if loc <+: other then none else fs.get? other := by
  by_cases ho : other = []
  · subst ho
    rw [get?_root, get?_root, if_neg (by simpa using h)]
  · unfold get?
    rw [if_neg ho, if_neg ho, removeTree, List.find?_filter]
    by_cases hp : loc <+: other
    · rw [if_pos hp, Option.map_eq_none_iff, List.find?_eq_none]
      intro e _ he
      simp only [Bool.not_eq_true', decide_eq_true_eq] at he
      obtain ⟨hk, rfl⟩ := he
      simp [List.isPrefixOf_iff_prefix.mpr hp] at hk
    · have hk : loc.isPrefixOf other = false := by
        simpa [Bool.eq_false_iff, List.isPrefixOf_iff_prefix] using hp
      rw [if_neg hp]
      refine congrArg (Option.map Prod.snd) (congrArg (List.find? · fs.entries) ?_)
      funext e
      by_cases he : e.1 = other <;> simp [he, hk]

theorem mem_of_get? {fs : FileSystem} {loc : Location} {e : Entry} (hne : loc ≠ [])
    (h : fs.get? loc = some e) : (loc, e) ∈ fs.entries := by
  unfold get? at h
  rw [if_neg hne] at h
  obtain ⟨⟨l, d⟩, hf, rfl⟩ := Option.map_eq_some_iff.mp h
  have hl : l = loc := by simpa using List.find?_some hf
  exact hl ▸ List.mem_of_find?_eq_some hf

theorem get?_dropLast {fs : FileSystem} {loc : Location} {e : Entry} (hne : loc ≠ [])
    (h : fs.get? loc = some e) : fs.get? loc.dropLast = some .directory := by
  rcases (fs.rooted _ (mem_of_get? hne h)).2 with hd | hd
  · rw [hd, get?_root]
  · exact get?_of_mem hd

theorem get?_above {fs : FileSystem} {loc names : Location} {e : Entry}
    (h : fs.get? (loc ++ names) = some e) (hne : names ≠ []) : fs.get? loc = some .directory := by
  induction names using List.reverseRecOn generalizing e with
  | nil => exact absurd rfl hne
  | append_singleton names n ih =>
    have hd := get?_dropLast (by simp) h
    rw [← List.append_assoc, List.dropLast_concat] at hd
    by_cases hn : names = []
    · simpa [hn] using hd
    · exact ih hd hn

/-- All above a directory are directories. -/
theorem get?_ancestor {fs : FileSystem} {loc other : Location}
    (h : fs.get? loc = some .directory) (hp : other <+: loc) :
    fs.get? other = some .directory := by
  obtain ⟨names, rfl⟩ := hp
  by_cases hn : names = []
  · rwa [hn, List.append_nil] at h
  · exact get?_above h hn

/-- Where nothing lies, nothing lies below. -/
theorem get?_below {fs : FileSystem} {loc other : Location} (h : fs.get? loc = none)
    (hp : loc <+: other) : fs.get? other = none := by
  obtain ⟨names, rfl⟩ := hp
  cases hg : fs.get? (loc ++ names) with
  | none => rfl
  | some e =>
    by_cases hn : names = []
    · simp [hn, h] at hg
    · simp [get?_above hg hn] at h

end Screenwright.Proofs.Entries
