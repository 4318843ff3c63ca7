import Mathlib.Data.List.Nodup
import Mathlib.Tactic.ByContra
import Screenwright.Screen.Routes

namespace Screenwright.Proofs.RouteNames
open Screen

/-- A name's file or class belongs to one of the names in use. -/
def Taken (used : List Name) (n : Name) : Prop :=
  n.fileName ∈ used.map Name.fileName ∨ n.className ∈ used.map Name.className

/-- A screen keeps the name of its label if it can, and else gets the least number from two
on that makes it free. The number is at most one more than the names in use. -/
def NamedAfter (used : List Name) (e : Route) : Prop :=
  (¬ Taken used (.ofLabel e.label) → e.name = .ofLabel e.label) ∧
    (Taken used (.ofLabel e.label) →
      ∃ k, 2 ≤ k ∧ k ≤ used.length + 1 ∧ e.name = (Name.ofLabel e.label).withSuffix k ∧
        ¬ Taken used e.name ∧
        ∀ m, 2 ≤ m → m < k → Taken used ((Name.ofLabel e.label).withSuffix m))

/-- What is written down while screens are named: the files and classes in use, the names
given so far, and those that are not the names of their labels. -/
structure Ledger where
  files : List String := []
  classes : List String := []
  entries : List Route := []
  renames : List Rename := []

/-- The search for a free name: a candidate that clashes gives way to the next number. -/
inductive Search (files classes : List String) (wanted : Name) : Name → Nat → Name → Prop
  | free {n next} : Routes.clashes files classes n = false → Search files classes wanted n next n
  | taken {n next found} : Routes.clashes files classes n = true →
      Search files classes wanted (wanted.withSuffix next) (next + 1) found →
      Search files classes wanted n next found

def Ledger.record (l : Ledger) (label : String) (name : Name) : Ledger where
  files := l.files ++ [name.fileName]
  classes := l.classes ++ [name.className]
  entries := l.entries ++ [⟨label, name⟩]
  renames :=
    if name = .ofLabel label then l.renames
    else l.renames ++ [⟨label, .ofLabel label, name⟩]

/-- Naming labels in order, each by a search that starts at the name of the label. -/
inductive Fills : Ledger → List String → Ledger → Prop
  | nil {l} : Fills l [] l
  | cons {l label labels name out} :
      Search l.files l.classes (.ofLabel label) (.ofLabel label) 2 name →
      Fills (l.record label name) labels out → Fills l (label :: labels) out

def Ledger.of (r : Routes) : Ledger where
  files := r.entries.map fun e => e.name.fileName
  classes := r.entries.map fun e => e.name.className
  entries := r.entries
  renames := r.renames

theorem lowerAscii_of_isDigit {c : Char} (h : c.isDigit = true) : Casing.lowerAscii c = c := by
  simp only [Char.isDigit, Bool.and_eq_true, decide_eq_true_eq, UInt32.le_iff_toNat_le] at h
  refine if_neg ?_
  rintro ⟨hl, _⟩
  have hA : 'A'.val.toNat = 65 := rfl
  have h9 : '9'.val.toNat = 57 := rfl
  have hle := UInt32.le_iff_toNat_le.mp (Char.le_def.mp hl)
  omega

/-- Digits have no case, so they pass into the file name as they are. -/
theorem fileName_withSuffix (n : Name) (k : Nat) :
    (n.withSuffix k).fileName.toList =
      "screen_".toList ++ n.base.toList.map Casing.lowerAscii ++ Nat.toDigits 10 k ++
        ".dart".toList := by
  have hd : (Nat.toDigits 10 k).map Casing.lowerAscii = Nat.toDigits 10 k := by
    refine (List.map_congr_left fun c hc => ?_).trans (List.map_id _)
    exact lowerAscii_of_isDigit (Nat.isDigit_of_mem_toDigits (by decide) (by decide) hc)
  simp [Name.fileName, Name.withSuffix, hd]

theorem withSuffix_fileName_inj {n : Name} {j k : Nat}
    (h : (n.withSuffix j).fileName = (n.withSuffix k).fileName) : j = k := by
  have hl := congrArg String.toList h
  simp only [fileName_withSuffix, List.append_cancel_left_eq, List.append_cancel_right_eq] at hl
  simpa using congrArg (fun ds => Nat.ofDigitChars 10 ds 0) hl

theorem withSuffix_fileName_ne (n : Name) (k : Nat) : (n.withSuffix k).fileName ≠ n.fileName := by
  intro h
  have hl := congrArg List.length (congrArg String.toList h)
  have hp := Nat.length_toDigits_pos (b := 10) (n := k)
  rw [fileName_withSuffix] at hl
  simp only [Name.fileName, String.toList_append, String.toList_ofList, List.length_append] at hl
  omega

theorem className_inj {m n : Name} (h : m.className = n.className) : m = n := by
  obtain ⟨base⟩ := m
  obtain ⟨base'⟩ := n
  have hl := congrArg String.toList h
  simp only [Name.className, String.toList_append, List.append_cancel_left_eq] at hl
  rw [String.toList_inj.mp hl]

theorem routePath_inj {m n : Name} (h : m.routePath = n.routePath) : m = n := by
  obtain ⟨base⟩ := m
  obtain ⟨base'⟩ := n
  have hl := congrArg String.toList h
  simp only [Name.routePath, String.toList_append, List.append_cancel_left_eq] at hl
  rw [String.toList_inj.mp hl]

/-- A class in use has its file in use as well, so files alone decide. -/
theorem taken_iff {used : List Name} {n : Name} :
    Taken used n ↔ n.fileName ∈ used.map Name.fileName := by
  refine ⟨?_, .inl⟩
  rintro (hf | hc)
  · exact hf
  · obtain ⟨m, hm, he⟩ := List.mem_map.mp hc
    exact className_inj he ▸ List.mem_map_of_mem hm

theorem clashes_iff {used : List Name} {n : Name} :
    Routes.clashes (used.map Name.fileName) (used.map Name.className) n = true ↔
      Taken used n := by
  simp [Routes.clashes, Taken]

theorem clashes_eq_false_iff {used : List Name} {n : Name} :
    Routes.clashes (used.map Name.fileName) (used.map Name.className) n = false ↔
      ¬ Taken used n := by
  rw [← clashes_iff, Bool.not_eq_true]

theorem nodup_candidates (wanted : Name) (count : Nat) :
    ((Routes.candidates wanted count).map Name.fileName).Nodup := by
  simp only [Routes.candidates, List.map_cons, List.map_map, List.nodup_cons]
  constructor
  · intro h
    obtain ⟨k, _, he⟩ := List.mem_map.mp h
    exact withSuffix_fileName_ne wanted (k + 2) he
  · refine List.nodup_range.map fun j k he => ?_
    have := withSuffix_fileName_inj he
    omega

/-- One candidate more than there are names in use: they cannot all be taken. -/
theorem exists_free (used : List Name) (wanted : Name) :
    ∃ n ∈ Routes.candidates wanted used.length, ¬ Taken used n := by
  by_contra hall
  have hsub : (Routes.candidates wanted used.length).map Name.fileName ⊆
      used.map Name.fileName := by
    intro f hf
    obtain ⟨n, hn, rfl⟩ := List.mem_map.mp hf
    by_contra hfree
    exact hall ⟨n, hn, fun ht => hfree (taken_iff.mp ht)⟩
  have hlen := (nodup_candidates wanted used.length).length_le_of_subset hsub
  simp only [Routes.candidates, List.map_cons, List.map_map, List.length_cons, List.length_map,
    List.length_range] at hlen
  omega

theorem freeName_of_free {used : List Name} {wanted : Name} (h : ¬ Taken used wanted) :
    Routes.freeName used wanted = wanted := by
  simp [Routes.freeName, Routes.candidates, clashes_eq_false_iff.mpr h]

/-- A search along the numbers stops at the first that is free. -/
theorem freeName_of_taken {used : List Name} {wanted : Name} (h : Taken used wanted) :
    ∃ k, 2 ≤ k ∧ k ≤ used.length + 1 ∧ Routes.freeName used wanted = wanted.withSuffix k ∧
      ¬ Taken used (wanted.withSuffix k) ∧
      ∀ m, 2 ≤ m → m < k → Taken used (wanted.withSuffix m) := by
  let isFree := fun k => !Routes.clashes (used.map Name.fileName) (used.map Name.className)
    (wanted.withSuffix (k + 2))
  cases hf : (List.range used.length).find? isFree with
  | none =>
    obtain ⟨n, hn, hfree⟩ := exists_free used wanted
    rcases List.mem_cons.mp hn with rfl | hm
    · exact absurd h hfree
    · obtain ⟨k, hk, rfl⟩ := List.mem_map.mp hm
      have := List.find?_eq_none.mp hf k hk
      simp [isFree, clashes_eq_false_iff, hfree] at this
  | some k =>
    obtain ⟨hfree, hk, hleast⟩ := List.find?_range_eq_some.mp hf
    have hlt := List.mem_range.mp hk
    refine ⟨k + 2, by omega, by omega, ?_, ?_, ?_⟩
    · rw [Routes.freeName, Routes.candidates, List.find?_cons_of_neg, List.find?_map]
      · exact congrArg (fun found => (found.map fun k => wanted.withSuffix (k + 2)).getD wanted) hf
      · simp [clashes_iff.mpr h]
    · simpa [isFree, clashes_eq_false_iff] using hfree
    · intro m hm hmk
      obtain ⟨j, rfl⟩ := Nat.exists_eq_add_of_le' hm
      have := hleast j (by omega)
      simpa [isFree, clashes_iff] using this

theorem namedAfter_freeName (used : List Name) (label : String) :
    NamedAfter used ⟨label, Routes.freeName used (.ofLabel label)⟩ := by
  refine ⟨freeName_of_free, fun h => ?_⟩
  obtain ⟨k, hlow, hhigh, he, hfree, hleast⟩ := freeName_of_taken h
  exact ⟨k, hlow, hhigh, he, he ▸ hfree, hleast⟩

theorem freeName_not_taken (used : List Name) (wanted : Name) :
    ¬ Taken used (Routes.freeName used wanted) := by
  by_cases h : Taken used wanted
  · obtain ⟨k, _, _, he, hfree, _⟩ := freeName_of_taken h
    exact he ▸ hfree
  · rwa [freeName_of_free h]

/-- Numbers that are taken are passed over, up to one that is free. -/
theorem Search.count {files classes : List String} {wanted : Name} {k : Nat}
    (hfree : Routes.clashes files classes (wanted.withSuffix k) = false) :
    ∀ gap next, next + gap = k →
      (∀ m, next ≤ m → m < k → Routes.clashes files classes (wanted.withSuffix m) = true) →
      Search files classes wanted (wanted.withSuffix next) (next + 1) (wanted.withSuffix k) := by
  intro gap
  induction gap with
  | zero =>
    rintro next rfl _
    exact .free hfree
  | succ gap ih =>
    intro next hk htaken
    refine .taken (htaken next (Nat.le_refl _) (by omega)) (ih (next + 1) (by omega) ?_)
    intro m hm hmk
    exact htaken m (by omega) hmk

theorem search_freeName (used : List Name) (wanted : Name) :
    Search (used.map Name.fileName) (used.map Name.className) wanted wanted 2
      (Routes.freeName used wanted) := by
  by_cases h : Taken used wanted
  · obtain ⟨k, hlow, _, he, hfree, hleast⟩ := freeName_of_taken h
    rw [he]
    refine .taken (clashes_iff.mpr h) ?_
    refine Search.count (clashes_eq_false_iff.mpr hfree) (k - 2) 2 (by omega) ?_
    intro m hm hmk
    exact clashes_iff.mpr (hleast m hm hmk)
  · rw [freeName_of_free h]
    exact .free (clashes_eq_false_iff.mpr h)

theorem Search.unique {files classes : List String} {wanted n found found' : Name} {next : Nat}
    (h : Search files classes wanted n next found)
    (h' : Search files classes wanted n next found') : found = found' := by
  induction h with
  | free hfree =>
    cases h' with
    | free => rfl
    | taken htaken => exact absurd (htaken.symm.trans hfree) (by decide)
  | taken htaken _ ih =>
    cases h' with
    | free hfree => exact absurd (htaken.symm.trans hfree) (by decide)
    | taken _ hrest => exact ih hrest

theorem renames_add (r : Routes) (label : String) :
    (r.add label).renames =
      let name := Routes.freeName (r.entries.map Route.name) (.ofLabel label)
      if name = .ofLabel label then r.renames
      else r.renames ++ [⟨label, .ofLabel label, name⟩] := by
  simp only [Routes.add, Routes.renames, List.filterMap_append, List.filterMap_cons,
    List.filterMap_nil]
  split <;> split <;> simp_all

theorem record_of (r : Routes) (label : String) :
    (Ledger.of r).record label (Routes.freeName (r.entries.map Route.name) (.ofLabel label)) =
      .of (r.add label) := by
  simp only [Ledger.record, Ledger.of, renames_add]
  simp [Routes.add]

/-- One screen more: the search finds a name, and it is the one that the table gets. -/
theorem search_of_iff {r : Routes} {label : String} {name : Name} :
    Search (Ledger.of r).files (Ledger.of r).classes (.ofLabel label) (.ofLabel label) 2 name ↔
      name = Routes.freeName (r.entries.map Route.name) (.ofLabel label) := by
  have hfound := search_freeName (r.entries.map Route.name) (.ofLabel label)
  simp only [List.map_map, Function.comp_def] at hfound
  refine ⟨fun h => h.unique hfound, ?_⟩
  rintro rfl
  exact hfound

/-- Naming all labels always comes to an end, and to the same one. -/
theorem fills_of_iff {labels : List String} {r : Routes} {out : Ledger} :
    Fills (.of r) labels out ↔ out = .of (labels.foldl Routes.add r) := by
  induction labels generalizing r with
  | nil =>
    refine ⟨fun h => ?_, ?_⟩
    · cases h
      rfl
    · rintro rfl
      exact .nil
  | cons label labels ih =>
    rw [List.foldl_cons, ← ih]
    refine ⟨fun h => ?_, fun h => ?_⟩
    · cases h with
      | cons hs hf =>
        rw [search_of_iff.mp hs, record_of] at hf
        exact hf
    · refine .cons (search_of_iff.mpr rfl) ?_
      rwa [record_of]

/-- What holds of a table while screens are added: no two names share a file, and every name
is the one that is due after those before it. -/
structure WellNamed (r : Routes) : Prop where
  files : (r.entries.map fun e => e.name.fileName).Nodup
  named : ∀ i e, r.entries[i]? = some e → NamedAfter ((r.entries.take i).map Route.name) e

theorem WellNamed.add {r : Routes} (h : WellNamed r) (label : String) :
    WellNamed (r.add label) := by
  constructor
  · have hfree := freeName_not_taken (r.entries.map Route.name) (.ofLabel label)
    rw [taken_iff, List.map_map] at hfree
    simp only [Routes.add, List.map_append, List.map_cons, List.map_nil]
    refine List.nodup_append.mpr ⟨h.files, by simp, ?_⟩
    intro f hf g hg he
    rw [List.mem_singleton.mp hg] at he
    exact hfree (he ▸ hf)
  · intro i e he
    simp only [Routes.add] at he ⊢
    rcases Nat.lt_or_ge i r.entries.length with hi | hi
    · rw [List.getElem?_append_left hi] at he
      rw [List.take_append_of_le_length (Nat.le_of_lt hi)]
      exact h.named i e he
    · rw [List.getElem?_append_right hi] at he
      obtain ⟨hz, rfl⟩ := List.getElem?_eq_some_iff.mp he
      have hi' : i = r.entries.length := by simp at hz; omega
      subst hi'
      simpa using namedAfter_freeName (r.entries.map Route.name) label

theorem wellNamed_foldl {labels : List String} {r : Routes} (h : WellNamed r) :
    WellNamed (labels.foldl Routes.add r) := by
  induction labels generalizing r with
  | nil => exact h
  | cons label labels ih => exact ih (h.add label)

theorem wellNamed_resolve (labels : List String) : WellNamed (.resolve labels) :=
  wellNamed_foldl ⟨by simp, by simp⟩

theorem NamedAfter.ofLabel_or_withSuffix {used : List Name} {e : Route} (h : NamedAfter used e) :
    e.name = .ofLabel e.label ∨ ∃ k, e.name = (Name.ofLabel e.label).withSuffix k := by
  by_cases ht : Taken used (.ofLabel e.label)
  · obtain ⟨k, _, _, hk, _⟩ := h.2 ht
    exact .inr ⟨k, hk⟩
  · exact .inl (h.1 ht)

/-- What holds of the names of labels, and of a name with a number when it holds of the name,
holds of all names of a project. -/
theorem forall_resolve {P : Name → Prop} (hlabel : ∀ label, P (.ofLabel label))
    (hsuffix : ∀ n k, P n → P (n.withSuffix k)) (labels : List String) :
    ∀ e ∈ (Routes.resolve labels).entries, P e.name := by
  intro e he
  obtain ⟨i, hi⟩ := List.getElem?_of_mem he
  rcases ((wellNamed_resolve labels).named i e hi).ofLabel_or_withSuffix with hn | ⟨k, hn⟩
  · exact hn ▸ hlabel e.label
  · exact hn ▸ hsuffix _ k (hlabel e.label)

theorem labels_foldl (labels : List String) (r : Routes) :
    (labels.foldl Routes.add r).entries.map Route.label = r.entries.map Route.label ++ labels := by
  induction labels generalizing r with
  | nil => simp
  | cons label labels ih => simp [ih, Routes.add]

theorem labels_resolve (labels : List String) :
    (Routes.resolve labels).entries.map Route.label = labels := by
  exact labels_foldl labels ⟨[]⟩

theorem fileNames_nodup (labels : List String) :
    ((Routes.resolve labels).entries.map fun e => e.name.fileName).Nodup :=
  (wellNamed_resolve labels).files

theorem names_nodup (labels : List String) :
    ((Routes.resolve labels).entries.map Route.name).Nodup :=
  List.Nodup.of_map Name.fileName
    (by simpa [List.map_map, Function.comp_def] using fileNames_nodup labels)

theorem classNames_nodup (labels : List String) :
    ((Routes.resolve labels).entries.map fun e => e.name.className).Nodup := by
  have h := (names_nodup labels).map (f := Name.className) fun _ _ => className_inj
  rwa [List.map_map] at h

theorem routePaths_nodup (labels : List String) :
    ((Routes.resolve labels).entries.map fun e => e.name.routePath).Nodup := by
  have h := (names_nodup labels).map (f := Name.routePath) fun _ _ => routePath_inj
  rwa [List.map_map] at h

theorem renames_eq_filter (r : Routes) :
    r.renames =
      (r.entries.filter fun e => e.name ≠ .ofLabel e.label).map fun e =>
        ⟨e.label, .ofLabel e.label, e.name⟩ := by
  simp only [Routes.renames]
  induction r.entries with
  | nil => rfl
  | cons e es ih =>
    by_cases h : e.name = .ofLabel e.label
    · simpa [List.filterMap_cons, h] using ih
    · simpa [List.filterMap_cons, h] using ih

/-- Any list of labels is named in finitely many steps, one entry for each label in order,
without a file, a class or a path given twice. -/
theorem resolve_names (labels : List String) :
    let r := Routes.resolve labels
    (∀ l, Fills {} labels l ↔ l = .of r) ∧
      r.entries.map Route.label = labels ∧
      (r.entries.map fun e => e.name.fileName).Nodup ∧
      (r.entries.map fun e => e.name.className).Nodup ∧
      (r.entries.map fun e => e.name.routePath).Nodup ∧
      (∀ i e, r.entries[i]? = some e →
        ((r.entries.take i).map Route.name).length = i ∧
          NamedAfter ((r.entries.take i).map Route.name) e) ∧
      r.renames =
        (r.entries.filter fun e => e.name ≠ .ofLabel e.label).map fun e =>
          ⟨e.label, .ofLabel e.label, e.name⟩ := by
  refine ⟨fun l => fills_of_iff (r := ⟨[]⟩), labels_resolve labels, fileNames_nodup labels,
    classNames_nodup labels, routePaths_nodup labels, ?_, renames_eq_filter _⟩
  intro i e he
  have hi := (List.getElem?_eq_some_iff.mp he).1
  refine ⟨?_, (wellNamed_resolve labels).named i e he⟩
  rw [List.length_map, List.length_take]
  omega

end Screenwright.Proofs.RouteNames
