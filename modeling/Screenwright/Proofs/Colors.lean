import Screenwright.Proofs.Stripping
import Screenwright.Style.Color

namespace Screenwright.Proofs.Colors
open Style Text Stripping

def isHexDigit (c : Char) : Bool :=
  ('0' ≤ c && c ≤ '9') || ('a' ≤ c && c ≤ 'f') || ('A' ≤ c && c ≤ 'F')

/-- As many hexadecimal digits as make a color. -/
structure Hex (ds : List Char) : Prop where
  count : ds.length = 3 ∨ ds.length = 6 ∨ ds.length = 8
  digits : ∀ d ∈ ds, isHexDigit d = true

/-- A token of a number of hash signs with the digits of a color behind them. -/
def Marked (n : Nat) (token : String) : Prop :=
  ∃ ds, token.toList = List.replicate n '#' ++ ds ∧ Hex ds

/-- A token that stands for no color at all. -/
def Colorless (token : String) : Prop := token = "" ∨ token = "transparent" ∨ token = "none"

/-- A value of the kind that a token, without the blanks around it, is to have. -/
structure Classified (token : String) (v : ColorValue) : Prop where
  transparent : v = .transparent ↔ Colorless token
  solid : (∃ c, v = .solid c) ↔ Marked 1 token
  fallback : v = .fallback ↔ ¬ Colorless token ∧ ¬ Marked 1 token

variable {ds : List Char} {token s : String} {n : Nat}

theorem isSome_hexValue? (c : Char) : (hexValue? c).isSome = isHexDigit c := by
  unfold hexValue? isHexDigit isDigit
  grind

theorem isHexDigit_ne_hash {c : Char} (h : isHexDigit c = true) : c ≠ '#' := by
  rintro rfl
  cases h

theorem toNat_of_isHexDigit {c : Char} (h : isHexDigit c = true) :
    48 ≤ c.toNat ∧ c.toNat < 103 := by
  simp only [isHexDigit, Bool.or_eq_true, Bool.and_eq_true, decide_eq_true_eq, Char.le_def,
    UInt32.le_iff_toNat_le, Char.toNat_val] at h
  rcases h with (h | h) | h
  all_goals exact ⟨Nat.le_trans (by decide) h.1, Nat.lt_of_le_of_lt h.2 (by decide)⟩

theorem isBlank_of_isHexDigit {c : Char} (h : isHexDigit c = true) : isBlank c = false := by
  have hbounds := toNat_of_isHexDigit h
  simp only [isBlank, Bool.or_eq_false_iff, Bool.and_eq_false_iff, decide_eq_false_iff_not]
  omega

/-- Hexadecimal digits have values, one for each of them, and no other text has. -/
theorem mapM_hexValue? (ds : List Char) :
    ds.mapM hexValue? =
      if ds.all isHexDigit then some (ds.map fun d => (hexValue? d).getD 0) else none := by
  induction ds with
  | nil => rfl
  | cons d ds ih =>
    have hd := isSome_hexValue? d
    rw [List.mapM_cons, ih]
    cases hv : hexValue? d with
    | none => simp [← hd, hv]
    | some v => cases hall : ds.all isHexDigit <;> simp [← hd, hv, hall]

theorem hex_iff (ds : List Char) :
    Hex ds ↔ ∃ vs, ds.mapM hexValue? = some vs ∧
      (vs.length = 3 ∨ vs.length = 6 ∨ vs.length = 8) := by
  rw [mapM_hexValue?]
  constructor
  · intro h
    exact ⟨_, if_pos (List.all_eq_true.mpr h.digits), by simpa using h.count⟩
  · rintro ⟨vs, hvs, hcount⟩
    split at hvs
    · next hall =>
      cases hvs
      exact ⟨by simpa using hcount, List.all_eq_true.mp hall⟩
    · cases hvs

theorem isSome_ofHex? (s : String) :
    (Color.ofHex? s).isSome = true ↔ Hex (s.toList.dropWhile (· = '#')) := by
  rw [hex_iff, Color.ofHex?]
  cases (s.toList.dropWhile (· = '#')).mapM hexValue? with
  | none => simp
  | some vs =>
    -- The counts are those of the lists that make a color.
    match vs with
    | [] | [_] | [_, _] | [_, _, _] | [_, _, _, _] | [_, _, _, _, _] | [_, _, _, _, _, _]
    | [_, _, _, _, _, _, _] | [_, _, _, _, _, _, _, _] => simp
    | _ :: _ :: _ :: _ :: _ :: _ :: _ :: _ :: _ :: rest => simp

theorem dropWhile_marks (h : Hex ds) (n : Nat) :
    (List.replicate n '#' ++ ds).dropWhile (· = '#') = ds := by
  rw [List.dropWhile_append_of_pos (by simp)]
  cases ds with
  | nil => rfl
  | cons d ds =>
    have hd : ¬ d = '#' := isHexDigit_ne_hash (h.digits d List.mem_cons_self)
    exact List.dropWhile_cons_of_neg (by simpa using hd)

theorem marked_iff (token : String) :
    (∃ n, Marked n token) ↔ Hex (token.toList.dropWhile (· = '#')) := by
  constructor
  · rintro ⟨n, ds, hs, h⟩
    rwa [hs, dropWhile_marks h]
  · intro h
    have hmarks : token.toList.takeWhile (· = '#') =
        List.replicate (token.toList.takeWhile (· = '#')).length '#' :=
      List.eq_replicate_iff.mpr ⟨rfl, fun c hc => by simpa using List.mem_takeWhile_imp hc⟩
    refine ⟨(token.toList.takeWhile (· = '#')).length, _, ?_, h⟩
    rw [← hmarks, List.takeWhile_append_dropWhile]

/-- The number of signs is part of the token. -/
theorem Marked.unique {m : Nat} (hm : Marked m token) (hn : Marked n token) : m = n := by
  obtain ⟨ds, hs, h⟩ := hm
  obtain ⟨es, ht, h'⟩ := hn
  have hsame : ds = es := by
    rw [← dropWhile_marks h m, ← hs, ht, dropWhile_marks h' n]
  subst hsame
  simpa using congrArg List.length (hs.symm.trans ht)

theorem Hex.head (h : Hex ds) : ds.head? ≠ some '#' := by
  intro hd
  exact isHexDigit_ne_hash (h.digits '#' (List.mem_of_mem_head? hd)) rfl

theorem Marked.head_iff (h : Marked n token) : token.toList.head? = some '#' ↔ 1 ≤ n := by
  obtain ⟨ds, hs, hds⟩ := h
  rw [hs]
  cases n with
  | zero => simpa using hds.head
  | succ n => simp [List.replicate_succ]

theorem not_colorless_of_head (h : token.toList.head? = some '#') : ¬ Colorless token := by
  rintro (rfl | rfl | rfl) <;> cases h

theorem ofToken_of_colorless (h : Colorless (trim s)) : ColorValue.ofToken s = .transparent :=
  if_pos h

theorem ofToken_of_marked (hn : 1 ≤ n) (h : Marked n (trim s)) :
    ∃ c, Color.ofHex? (trim s) = some c ∧ ColorValue.ofToken s = .solid c := by
  have hhead : (trim s).toList.head? = some '#' := h.head_iff.mpr hn
  have hcolorless : ¬ (trim s = "" ∨ trim s = "transparent" ∨ trim s = "none") :=
    not_colorless_of_head hhead
  obtain ⟨c, hc⟩ := Option.isSome_iff_exists.mp ((isSome_ofHex? _).mpr ((marked_iff _).mp ⟨n, h⟩))
  refine ⟨c, hc, ?_⟩
  simp only [ColorValue.ofToken, if_neg hcolorless, if_pos hhead, hc]

theorem ofToken_of_unmarked (hb : ¬ Colorless (trim s)) (hm : ∀ n, 1 ≤ n → ¬ Marked n (trim s)) :
    ColorValue.ofToken s = .fallback := by
  have hcolorless : ¬ (trim s = "" ∨ trim s = "transparent" ∨ trim s = "none") := hb
  simp only [ColorValue.ofToken, if_neg hcolorless]
  split
  · next hhead =>
    cases hc : Color.ofHex? (trim s) with
    | none => rfl
    | some c =>
      obtain ⟨n, hn⟩ := (marked_iff _).mpr ((isSome_ofHex? (trim s)).mp (by rw [hc]; rfl))
      exact absurd hn (hm n (hn.head_iff.mp hhead))
  · rfl

/-- Every token is of one of three kinds, and comes to what is said of its kind. -/
theorem ofToken_kinds (s : String) :
    (ColorValue.ofToken s = .transparent ↔ Colorless (trim s)) ∧
      ((∃ c, ColorValue.ofToken s = .solid c) ↔ ∃ n, 1 ≤ n ∧ Marked n (trim s)) ∧
      (ColorValue.ofToken s = .fallback ↔
        ¬ Colorless (trim s) ∧ ¬ ∃ n, 1 ≤ n ∧ Marked n (trim s)) := by
  by_cases hm : ∃ n, 1 ≤ n ∧ Marked n (trim s)
  · obtain ⟨n, hn, h⟩ := hm
    obtain ⟨c, _, hc⟩ := ofToken_of_marked hn h
    have hmarked : ∃ n, 1 ≤ n ∧ Marked n (trim s) := ⟨n, hn, h⟩
    simp [hc, hmarked, not_colorless_of_head (h.head_iff.mpr hn)]
  · by_cases hb : Colorless (trim s)
    · simp [ofToken_of_colorless hb, hb, hm]
    · have hc := ofToken_of_unmarked hb fun n hn h => hm ⟨n, hn, h⟩
      simp [hc, hb, hm]

/-- Colors do not depend on how many signs stand in front of the digits. -/
theorem ofHex?_congr {t : String}
    (h : s.toList.dropWhile (· = '#') = t.toList.dropWhile (· = '#')) :
    Color.ofHex? s = Color.ofHex? t := by
  rw [Color.ofHex?, Color.ofHex?, h]

def oneMark (ds : List Char) : String := String.ofList ('#' :: ds)

theorem solid_oneMark (h : Hex ds) : ∀ c ∈ '#' :: ds, isBlank c = false := by
  intro c hc
  rcases List.mem_cons.mp hc with rfl | hc
  · decide
  · exact isBlank_of_isHexDigit (h.digits c hc)

theorem trim_padded (h : Hex ds) (front back : List Char)
    (hs : s.toList = front ++ '#' :: ds ++ back) (hfront : ∀ c ∈ front, isBlank c = true)
    (hback : ∀ c ∈ back, isBlank c = true) : trim s = oneMark ds := by
  have hnone : dropEndWhile isBlank back = [] := by
    simpa [dropEndWhile] using hback
  rw [trim, hs, stripWhile_append hfront (List.cons_ne_nil '#' ds) (solid_oneMark h), hnone,
    List.append_nil, oneMark]

theorem trim_oneMark (h : Hex ds) : trim (oneMark ds) = oneMark ds :=
  trim_padded h [] [] (by simp [oneMark]) nofun nofun

theorem classified_of_few (h : ∀ n, Marked n (trim s) → n < 2) :
    Classified (trim s) (.ofToken s) := by
  have hone : (∃ n, 1 ≤ n ∧ Marked n (trim s)) ↔ Marked 1 (trim s) := by
    refine ⟨fun ⟨n, hpos, hn⟩ => ?_, fun h1 => ⟨1, Nat.le_refl 1, h1⟩⟩
    have hlt := h n hn
    obtain rfl : n = 1 := by omega
    exact hn
  obtain ⟨htransparent, hsolid, hfallback⟩ := ofToken_kinds s
  exact ⟨htransparent, hsolid.trans hone, hfallback.trans (by rw [hone])⟩

theorem not_classified_of_marked (hn : 2 ≤ n) (h : Marked n (trim s)) :
    ¬ Classified (trim s) (.ofToken s) := by
  intro hc
  obtain ⟨c, _, hsolid⟩ := ofToken_of_marked (by omega) h
  have hone := (hc.solid.mp ⟨c, hsolid⟩).unique h
  omega

/-- A token comes to what it should unless it has more than one hash sign in front of the digits of
a color. Then it is the color of the token with one sign. -/
theorem ofText_classified (s : String) :
    (Classified (trim s) (.ofText (some s)) ↔ ¬ ∃ n, 2 ≤ n ∧ Marked n (trim s)) ∧
      ∀ n ds, 1 ≤ n → (trim s).toList = List.replicate n '#' ++ ds → Hex ds →
        ∃ c, ColorValue.ofText (some s) = .solid c ∧
          ColorValue.ofText (some (oneMark ds)) = .solid c := by
  refine ⟨⟨?_, fun h => ?_⟩, fun n ds hn hs hds => ?_⟩
  · rintro hc ⟨n, hn, h⟩
    exact not_classified_of_marked hn h hc
  · refine classified_of_few fun n hn => ?_
    by_contra hlt
    exact h ⟨n, by omega, hn⟩
  · obtain ⟨c, hc, hsolid⟩ := ofToken_of_marked hn ⟨ds, hs, hds⟩
    have hmark : (oneMark ds).toList = List.replicate 1 '#' ++ ds := String.toList_ofList ..
    have hone : Marked 1 (trim (oneMark ds)) := by
      rw [trim_oneMark hds]
      exact ⟨ds, hmark, hds⟩
    obtain ⟨c', hc', hsolid'⟩ := ofToken_of_marked (Nat.le_refl 1) hone
    have hsame : Color.ofHex? (trim (oneMark ds)) = Color.ofHex? (trim s) := by
      refine ofHex?_congr ?_
      rw [trim_oneMark hds, hmark, hs, dropWhile_marks hds, dropWhile_marks hds]
    obtain rfl : c = c' := by simpa [hsame, hc] using hc'
    exact ⟨c, hsolid, hsolid'⟩

/-- Near misses fall back: another number of digits, or a digit that is not of ASCII. -/
example : ColorValue.ofText (some " #12345 ") = .fallback ∧
    ColorValue.ofText (some "#00\uff11") = .fallback := ⟨rfl, rfl⟩

theorem ofText_overmarked :
    (∃ c, ColorValue.ofText (some "##fff") = .solid c) ∧
      ¬ Classified "##fff" (.ofText (some "##fff")) := by
  have htrim : trim "##fff" = "##fff" := by decide
  have hmarked : Marked 2 (trim "##fff") :=
    htrim ▸ ⟨['f', 'f', 'f'], rfl, ⟨by decide, List.all_eq_true.mp rfl⟩⟩
  obtain ⟨c, _, hc⟩ := ofToken_of_marked (by decide) hmarked
  exact ⟨⟨c, hc⟩, htrim ▸ not_classified_of_marked (Nat.le_refl 2) hmarked⟩

end Screenwright.Proofs.Colors
