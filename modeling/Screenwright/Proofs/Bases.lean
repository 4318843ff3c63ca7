import Mathlib.Data.List.Induction
import Screenwright.Proofs.Identifiers
import Screenwright.Proofs.Words

namespace Screenwright.Proofs.Bases
open Screen Identifiers RouteNames

/-- A name whose base stays as it is when it is a label: letters, digits and underscores of ASCII,
with no lower-case letter in front. -/
structure Settled (n : Name) : Prop where
  nonempty : n.base ≠ ""
  chars : ∀ c ∈ n.base.toList, c.isAlphanum = true ∨ c = '_'
  head : ∀ c, n.base.toList.head? = some c → c.isLower = false

variable {n : Name}

theorem isBaseChar_iff {c : Char} :
    Name.isBaseChar c = true ↔ c.isAlphanum = true ∨ c = '_' := by
  have hupper : c.isUpper = ('A' ≤ c && c ≤ 'Z') := Bool.decide_and ..
  have hbase : Name.isBaseChar c = (c.isDigit || c.isLower || c.isUpper || c = '_') := by
    rw [hupper]
    rfl
  have halphanum : c.isAlphanum = (c.isUpper || c.isLower || c.isDigit) := rfl
  simp only [hbase, halphanum, Bool.or_eq_true, decide_eq_true_eq]
  tauto

/-- What base characters come to in upper and in lower case; none of them is blank. -/
theorem cases_of_isBaseChar {c : Char} (h : Name.isBaseChar c = true) :
    Casing.lowerAscii c = c.toLower ∧ (Casing.upperAscii c).isLower = false ∧
      (c.isLower = false → Casing.upperAscii c = c) ∧ Text.isBlank c = false := by
  have hall : ∀ n < 128, Name.isBaseChar (Char.ofNat n) = true →
      Casing.lowerAscii (Char.ofNat n) = (Char.ofNat n).toLower ∧
        (Casing.upperAscii (Char.ofNat n)).isLower = false ∧
        ((Char.ofNat n).isLower = false → Casing.upperAscii (Char.ofNat n) = Char.ofNat n) ∧
        Text.isBlank (Char.ofNat n) = false := by
    decide +kernel
  have := hall c.toNat (toNat_lt_of_isBaseChar h)
  simpa [h] using this

theorem Settled.clean (h : Settled n) : Clean n := fun c hc => isBaseChar_iff.mpr (h.chars c hc)

theorem Settled.fileName (h : Settled n) : n.fileName = "screen_" ++ n.base.toLower ++ ".dart" := by
  have hlower : n.base.toList.map Casing.lowerAscii = n.base.toList.map Char.toLower :=
    List.map_congr_left fun c hc => (cases_of_isBaseChar (h.clean c hc)).1
  have hbase : n.base.toLower = n.base.map Char.toLower := rfl
  rw [Name.fileName, hlower, hbase, ← String.toList_map, String.ofList_toList]

/-- A word in front gives its first letter to the whole. -/
theorem head_capitalize {cs : List Char} (hcs : ∀ c ∈ cs, Name.isBaseChar c = true) {c : Char}
    (h : (Name.capitalize cs).head? = some c) : c.isLower = false := by
  cases cs with
  | nil => cases h
  | cons d ds =>
    cases h
    exact (cases_of_isBaseChar (hcs d List.mem_cons_self)).2.1

theorem settled_ofLabel (label : String) : Settled (.ofLabel label) := by
  constructor
  case chars => exact fun c hc => isBaseChar_iff.mp (clean_ofLabel label c hc)
  case nonempty =>
    simp only [Name.ofLabel]
    split
    · decide
    · next h => simpa using h
  case head =>
    intro c hc
    simp only [Name.ofLabel] at hc
    split at hc
    · cases hc
      decide
    · rw [String.toList_ofList, List.head?_flatMap] at hc
      obtain ⟨w, _, hw⟩ := List.exists_of_findSome?_eq_some hc
      exact head_capitalize (fun d hd => (List.mem_filter.mp hd).2) hw

theorem Settled.withSuffix (h : Settled n) (k : Nat) : Settled (n.withSuffix k) := by
  have hlist : n.base.toList ≠ [] := by simpa using h.nonempty
  constructor
  case chars => exact fun c hc => isBaseChar_iff.mp (h.clean.withSuffix k c hc)
  case nonempty => simp [Name.withSuffix, h.nonempty]
  case head =>
    intro c hc
    rw [Name.withSuffix, String.toList_append, List.head?_append_of_ne_nil _ hlist] at hc
    exact h.head c hc

theorem settled_foldl (h : Settled n) (ks : List Nat) : Settled (ks.foldl Name.withSuffix n) := by
  induction ks generalizing n with
  | nil => exact h
  | cons k ks ih => exact ih (h.withSuffix k)

theorem settled_resolve (labels : List String) :
    ∀ e ∈ (Routes.resolve labels).entries, Settled e.name :=
  forall_resolve settled_ofLabel (fun _ k h => h.withSuffix k) labels

/-- A settled base is one word, from which nothing is dropped and which has its capital. -/
theorem Settled.ofLabel (h : Settled n) : Name.ofLabel n.base = n := by
  have hword : Text.pieces Text.isBlank n.base.toList = [n.base.toList] :=
    Words.pieces_eq fun c hc => (cases_of_isBaseChar (h.clean c hc)).2.2.2
  have hkept : n.base.toList.filter Name.isBaseChar = n.base.toList :=
    List.filter_eq_self.mpr h.clean
  have hcapital : Name.capitalize n.base.toList = n.base.toList := by
    cases hcs : n.base.toList with
    | nil => rfl
    | cons c cs =>
      have hc : Name.isBaseChar c = true := h.clean c (hcs ▸ List.mem_cons_self)
      rw [Name.capitalize, (cases_of_isBaseChar hc).2.2.1 (h.head c (by rw [hcs]; rfl))]
  have hbase : n.base.toList.isEmpty = false := by simpa using h.nonempty
  simp [Name.ofLabel, hword, hkept, hcapital, hbase]

theorem resolve_concat (labels : List String) (label : String) :
    Routes.resolve (labels ++ [label]) = (Routes.resolve labels).add label := by
  simp [Routes.resolve, List.foldl_append]

theorem resolve_free {labels : List String}
    (h : (labels.map fun label => (Name.ofLabel label).fileName).Nodup) :
    (Routes.resolve labels).entries = labels.map fun label => ⟨label, .ofLabel label⟩ := by
  induction labels using List.reverseRec with
  | nil => rfl
  | append_singleton labels label ih =>
    rw [List.map_append, List.nodup_append] at h
    obtain ⟨hlabels, _, happart⟩ := h
    have hfree : ¬ Taken ((Routes.resolve labels).entries.map Route.name) (.ofLabel label) := by
      rw [taken_iff, ih hlabels]
      intro hmem
      simp only [List.map_map, Function.comp_def] at hmem
      exact happart _ hmem _ List.mem_cons_self rfl
    simp only [resolve_concat, Routes.add, freeName_of_free hfree]
    rw [ih hlabels, List.map_append, List.map_singleton]

def bases (r : Routes) : List String := r.entries.map (·.name.base)

theorem resolve_bases (labels : List String) :
    (Routes.resolve (bases (.resolve labels))).entries =
      (Routes.resolve labels).entries.map fun e => ⟨e.name.base, e.name⟩ := by
  have hnames : ∀ e ∈ (Routes.resolve labels).entries, Name.ofLabel e.name.base = e.name :=
    fun e he => (settled_resolve labels e he).ofLabel
  have hfiles : ((bases (.resolve labels)).map fun base => (Name.ofLabel base).fileName).Nodup := by
    have hsame : ((bases (.resolve labels)).map fun base => (Name.ofLabel base).fileName) =
        (Routes.resolve labels).entries.map fun e => e.name.fileName := by
      rw [bases, List.map_map]
      exact List.map_congr_left fun e he => congrArg Name.fileName (hnames e he)
    exact hsame ▸ fileNames_nodup labels
  rw [resolve_free hfiles, bases, List.map_map]
  exact List.map_congr_left fun e he => by simp only [Function.comp_apply, hnames e he]

/-- The name that a label makes has a settled base, which all its other names are made of, and so
has that name with any numbers behind it; the base of either makes it again. The bases of all names
of a project make the same names, none of which is renamed. -/
theorem names_settled (label : String) (ks : List Nat) (labels : List String) :
    let n := ks.foldl Name.withSuffix (.ofLabel label)
    let r := Routes.resolve labels
    Settled n ∧ n.className = "Screen" ++ n.base ∧ n.routePath = "/" ++ n.base ∧
      n.fileName = "screen_" ++ n.base.toLower ++ ".dart" ∧ Name.ofLabel n.base = n ∧
      (Routes.resolve (bases r)).entries.map Route.name = r.entries.map Route.name ∧
      (Routes.resolve (bases r)).renames = [] := by
  have h := settled_foldl (settled_ofLabel label) ks
  refine ⟨h, rfl, rfl, h.fileName, h.ofLabel, ?_, ?_⟩
  · rw [resolve_bases, List.map_map]
    rfl
  · rw [renames_eq_filter, resolve_bases, List.map_eq_nil_iff, List.filter_eq_nil_iff]
    intro e he
    obtain ⟨f, hf, rfl⟩ := List.mem_map.mp he
    simp [(settled_resolve labels f hf).ofLabel]

end Screenwright.Proofs.Bases
