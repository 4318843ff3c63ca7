import Screenwright.Proofs.Figures
import Screenwright.Proofs.Lexing
import Screenwright.Proofs.RouteNames

namespace Screenwright.Proofs.Identifiers
open Screen Lexing Figures

theorem toNat_lt_of_isBaseChar {c : Char} (h : Name.isBaseChar c = true) : c.toNat < 128 := by
  have hle {a : Char} (ha : c ≤ a) : c.toNat ≤ a.toNat :=
    UInt32.le_iff_toNat_le.mp (Char.le_def.mp ha)
  simp only [Name.isBaseChar, Text.isDigit, Bool.or_eq_true, Bool.and_eq_true,
    decide_eq_true_eq] at h
  rcases h with ((⟨_, h⟩ | ⟨_, h⟩) | ⟨_, h⟩) | rfl
  · exact Nat.lt_of_le_of_lt (hle h) (by decide)
  · exact Nat.lt_of_le_of_lt (hle h) (by decide)
  · exact Nat.lt_of_le_of_lt (hle h) (by decide)
  · decide

theorem isBaseChar_cased {c : Char} (h : Name.isBaseChar c = true) :
    Name.isBaseChar (Casing.lowerAscii c) = true ∧
      Name.isBaseChar (Casing.upperAscii c) = true := by
  have hall : ∀ n < 128, Name.isBaseChar (Char.ofNat n) = true →
      Name.isBaseChar (Casing.lowerAscii (Char.ofNat n)) = true ∧
        Name.isBaseChar (Casing.upperAscii (Char.ofNat n)) = true := by
    decide +kernel
  have := hall c.toNat (toNat_lt_of_isBaseChar h)
  simpa [h] using this

/-- A name whose base is made of base characters, as all names of labels are. -/
def Clean (n : Name) : Prop := ∀ c ∈ n.base.toList, Name.isBaseChar c = true

theorem clean_ofLabel (label : String) : Clean (.ofLabel label) := by
  have hcap {cs : List Char} (h : ∀ c ∈ cs, Name.isBaseChar c = true) :
      ∀ c ∈ Name.capitalize cs, Name.isBaseChar c = true := by
    cases cs with
    | nil => exact h
    | cons a as =>
      obtain ⟨ha, has⟩ := List.forall_mem_cons.mp h
      exact List.forall_mem_cons.mpr ⟨(isBaseChar_cased ha).2, has⟩
  intro c hc
  simp only [Name.ofLabel] at hc
  split at hc
  · exact List.all_eq_true.mp (by decide) c hc
  · rw [String.toList_ofList] at hc
    obtain ⟨w, _, hw⟩ := List.mem_flatMap.mp hc
    exact hcap (fun d hd => (List.mem_filter.mp hd).2) c hw

theorem isPlain_of_mem_toDigits {n : Nat} {c : Char} (h : c ∈ Nat.toDigits 10 n) :
    isPlain c = true := by
  simp [isPlain, isWordChar, Name.isBaseChar, isDigit_of_mem_toDigits h]

theorem Clean.withSuffix {n : Name} (h : Clean n) (k : Nat) : Clean (n.withSuffix k) := by
  intro c hc
  simp only [Name.withSuffix, String.toList_append, Nat.toString_eq_repr, Nat.toList_repr,
    List.mem_append] at hc
  rcases hc with hc | hc
  · exact h c hc
  · simp [Name.isBaseChar, isDigit_of_mem_toDigits hc]

theorem clean_resolve (labels : List String) :
    ∀ e ∈ (Routes.resolve labels).entries, Clean e.name :=
  RouteNames.forall_resolve clean_ofLabel (fun _ k h => h.withSuffix k) labels

theorem Clean.reads_className {n : Name} (h : Clean n) : Reads n.className [.word n.className] := by
  have hs : ∀ c ∈ "Screen".toList, isWordChar c = true := List.all_eq_true.mp (by decide)
  refine reads_word (by simp [Name.className]) fun c hc => ?_
  rcases List.mem_append.mp (String.toList_append ▸ hc) with hc | hc
  · exact hs c hc
  · exact h c hc

theorem Clean.isPlain_fileName {n : Name} (h : Clean n) :
    ∀ c ∈ n.fileName.toList, isPlain c = true := by
  have hstart : ∀ c ∈ "screen_".toList, isPlain c = true := List.all_eq_true.mp (by decide)
  have hend : ∀ c ∈ ".dart".toList, isPlain c = true := List.all_eq_true.mp (by decide)
  intro c hc
  simp only [Name.fileName, String.toList_append, String.toList_ofList, List.mem_append] at hc
  rcases hc with (hc | hc) | hc
  · exact hstart c hc
  · obtain ⟨d, hd, rfl⟩ := List.mem_map.mp hc
    have := (isBaseChar_cased (h d hd)).1
    simp [isPlain, isWordChar, this]
  · exact hend c hc

end Screenwright.Proofs.Identifiers
