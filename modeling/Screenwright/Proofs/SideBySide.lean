import Screenwright.Proofs.Listing
import Screenwright.Proofs.Lockstep
import Screenwright.Proofs.Trees

namespace Screenwright.Proofs.SideBySide
open Files FileSystem FileAction Address
open Entries Walks Addresses Running Confinement Building Trees Listing Lockstep

/-- Nothing, two directories, or two files. -/
inductive SameEntry : Option Entry → Option Entry → Prop where
  | none : SameEntry none none
  | directory : SameEntry (some .directory) (some .directory)
  | file (content content' : Content) : SameEntry (some (.file content)) (some (.file content'))

/-- A directory that has been made, on a disk with room for everything in it. -/
structure Roomy (before : FileSystem) (loc : Location) (fs : FileSystem) : Prop
    extends Confined before loc fs where
  room : ∀ names e, fs.lacksRoom (loc ++ names) e = false

/-- Two directories that have been made, with the same kinds of entries under the same names. -/
structure Abreast (before : FileSystem) (loc : Location) (before' : FileSystem) (loc' : Location)
    (fs fs' : FileSystem) : Prop where
  left : Roomy before loc fs
  right : Roomy before' loc' fs'
  entries : ∀ names, SameEntry (fs.get? (loc ++ names)) (fs'.get? (loc' ++ names))

/-- Names behind an address do not make it too long. -/
def Fits (a : Address) (names : Location) : Prop :=
  (below a names).written.length ≤ addressLimit

instance (a : Address) (names : Location) : Decidable (Fits a names) :=
  inferInstanceAs (Decidable (_ ≤ _))

theorem Fits.front {a : Address} {front names : Location} (h : Fits a (front ++ names)) :
    Fits a front := by
  simp only [Fits, Addresses.below, List.flatMap_append, List.length_append] at h ⊢
  omega

theorem Fits.dropLast {a : Address} {names : Location} (h : Fits a names) :
    Fits a names.dropLast := by
  obtain ⟨more, hmore⟩ := List.dropLast_prefix names
  exact Fits.front (hmore.symm ▸ h)

theorem lacksRoom_put (fs : FileSystem) (loc : Location) (e : Entry) :
    (fs.put loc e).lacksRoom = fs.lacksRoom := by
  unfold FileSystem.put
  split <;> rfl

variable {before before' fs fs' : FileSystem} {a a' : Address} {loc loc' names : Location}

theorem proper_of_get? {e : Entry} (h : fs.get? loc = some e) : ∀ n ∈ loc, n.isProper = true := by
  by_cases hne : loc = []
  · simp [hne]
  · exact fs.named _ (mem_of_get? hne h)

/-- In a directory, an entry may go under the names of a directory and one more, if no directory is
lost. -/
theorem admits_below (hi : Confined before loc fs) (hne : names ≠ [])
    (hn : ∀ n ∈ names, n.isProper = true) (e : Entry) :
    fs.admits (loc ++ names) e =
      (fs.isDirectory (loc ++ names.dropLast) &&
        (e.isDirectory || !fs.isDirectory (loc ++ names))) := by
  have hproper : (loc ++ names).all FileName.isProper = true := by
    refine List.all_eq_true.mpr ?_
    exact proper_append (proper_of_get? hi.made) hn
  have hsome : decide (loc ++ names ≠ []) = true := by simp [hne]
  unfold admits
  rw [hproper, hsome, List.dropLast_append_of_ne_nil hne, Bool.true_and, Bool.true_and]

/-- In a directory, an address is looked up name by name. -/
theorem resolve_eq_walk (hs : Site before a loc) (hi : Confined before loc fs) (hne : names ≠ [])
    (hn : ∀ n ∈ names, n.isProper = true) (hf : Fits a names) (follow : Bool) :
    ∃ left, resolve fs follow (below a names) = walk fs follow left loc (names.map .name) := by
  obtain ⟨hz, hnil, _, _⟩ := resolve_ok_iff.mp hs.free
  obtain ⟨left, hmore⟩ := (hi.leads hs).append rfl
  have hzero : 0 ∉ (below a names).written := by
    simp only [Addresses.below, List.mem_append, List.mem_flatMap, List.mem_cons, not_or]
    refine ⟨hz, ?_⟩
    rintro ⟨n, hmem, hslash | hin⟩
    · exact absurd hslash (by decide)
    · exact ((isProper_iff.mp (hn n hmem)).2.2.2 0 hin).2 rfl
  have hsome : (below a names).written ≠ [] := by simp [Addresses.below, hnil]
  have hshort : ¬ addressLimit < (below a names).written.length := by
    unfold Fits at hf
    omega
  refine ⟨left, ?_⟩
  unfold Files.resolve
  rw [if_neg hzero, if_neg hsome, if_neg hshort, segments_below hn,
    origin_below hs.settled.ne_nil, hmore follow _ (by simpa using hne)]

theorem resolve_home (hs : Site before a loc) (hi : Confined before loc fs) (follow : Bool) :
    resolve fs follow a = .ok ⟨loc, some .directory⟩ := by
  obtain ⟨hz, hne, hl, _⟩ := resolve_ok_iff.mp hs.free
  exact resolve_ok_iff.mpr ⟨hz, hne, hl, (hi.leads hs).to_directory rfl follow⟩

/-- Places under the same names, with the same kind of entry there. -/
structure SamePlace (loc loc' names : Location) (p p' : Place) : Prop where
  left : p.location = loc ++ names
  right : p'.location = loc' ++ names
  entries : SameEntry p.entry p'.entry

/-- The induction is on the names that are left, behind those that have led to a directory. -/
theorem Abreast.walk (h : Abreast before loc before' loc' fs fs') {front : Location}
    (hd : fs.get? (loc ++ front) = some .directory)
    (hd' : fs'.get? (loc' ++ front) = some .directory) (follow : Bool) (links links' : Nat) :
    SameEnd Eq (SamePlace loc loc' (front ++ names))
      (walk fs follow links (loc ++ front) (names.map .name))
      (walk fs' follow links' (loc' ++ front) (names.map .name)) := by
  induction names generalizing front with
  | nil =>
    rw [List.map_nil, walk_nil, walk_nil, List.append_nil]
    exact .ok ⟨rfl, rfl, .directory⟩
  | cons n names ih =>
    rw [List.map_cons, walk_name, walk_name]
    by_cases hlong : nameLimit < n.length
    · rw [if_pos hlong, if_pos hlong]
      exact .error rfl
    rw [if_neg hlong, if_neg hlong, List.append_assoc, List.append_assoc]
    have hentry := h.entries (front ++ [n])
    have hnext := @ih (front ++ [n])
    have hstep : front ++ n :: names = front ++ [n] ++ names := by simp
    rw [hstep]
    generalize fs.get? (loc ++ (front ++ [n])) = e at hentry hnext
    generalize fs'.get? (loc' ++ (front ++ [n])) = e' at hentry hnext
    have hlast : (names.map Segment.name).isEmpty = true → names = [] := by simp
    cases hentry with
    | none =>
      dsimp only
      split
      · next he =>
        rw [hlast he, List.append_nil]
        exact .ok ⟨rfl, rfl, .none⟩
      · exact .error rfl
    | directory => exact hnext rfl rfl
    | file content content' =>
      dsimp only
      split
      · next he =>
        rw [hlast he, List.append_nil]
        exact .ok ⟨rfl, rfl, .file content content'⟩
      · exact .error rfl

theorem SameEntry.isDirectory {e e' : Option Entry} (h : SameEntry e e') :
    e.any Entry.isDirectory = e'.any Entry.isDirectory := by
  cases h <;> rfl

theorem Abreast.put (h : Abreast before loc before' loc' fs fs') {e e' : Entry}
    (he : SameEntry (some e) (some e')) (hne : names ≠ [])
    (ha : fs.admits (loc ++ names) e = true) (ha' : fs'.admits (loc' ++ names) e' = true) :
    Abreast before loc before' loc' (fs.put (loc ++ names) e) (fs'.put (loc' ++ names) e') := by
  have hlink : ∀ target, e ≠ .link target := by
    rintro target rfl
    cases he
  have hlink' : ∀ target, e' ≠ .link target := by
    rintro target rfl
    cases he
  constructor
  · refine ⟨h.left.put ha (absurd · hne) hlink, fun more f => ?_⟩
    rw [lacksRoom_put, h.left.room]
  · refine ⟨h.right.put ha' (absurd · hne) hlink', fun more f => ?_⟩
    rw [lacksRoom_put, h.right.room]
  · intro more
    simp only [get?_put ha, get?_put ha', List.append_cancel_left_eq]
    split
    · exact he
    · exact h.entries more

theorem inStep_putEntry (hne : names ≠ []) (hn : ∀ n ∈ names, n.isProper = true) {e e' : Entry}
    (he : SameEntry (some e) (some e')) :
    InStep (Abreast before loc before' loc') Eq Any (putEntry (loc ++ names) e)
      (putEntry (loc' ++ names) e') := by
  intro fs fs' h
  have hadmits : fs.admits (loc ++ names) e = fs'.admits (loc' ++ names) e' := by
    have hkind : e.isDirectory = e'.isDirectory := he.isDirectory
    rw [admits_below h.left.toConfined hne hn, admits_below h.right.toConfined hne hn, hkind]
    unfold FileSystem.isDirectory
    rw [(h.entries names.dropLast).isDirectory, (h.entries names).isDirectory]
  unfold EndAlike
  rw [runOn_putEntry, runOn_putEntry, h.left.room, h.right.room]
  simp only [Bool.false_eq_true, if_false]
  cases ha : fs'.admits (loc' ++ names) e' with
  | false =>
    rw [hadmits, ha]
    exact ⟨.error rfl, h⟩
  | true =>
    rw [ha] at hadmits
    rw [hadmits]
    exact ⟨.ok trivial, h.put he hne hadmits ha⟩

theorem inStep_fillFile (hne : names ≠ []) (hn : ∀ n ∈ names, n.isProper = true)
    (content content' : Content) :
    InStep (Abreast before loc before' loc') Eq Any (fillFile (loc ++ names) content)
      (fillFile (loc' ++ names) content') :=
  .bind (inStep_putEntry hne hn (.file _ _)) fun _ _ _ => inStep_putEntry hne hn (.file _ _)

def emptied : Entry → Entry
  | .file _ => .file .empty
  | e => e

theorem sameEntry_of_emptied {e e' : Entry} (h : emptied e = emptied e')
    (hlink : ∀ target, e' ≠ .link target) : SameEntry (some e) (some e') := by
  cases e' with
  | link target => exact absurd rfl (hlink target)
  | directory =>
    cases e with
    | directory => exact .directory
    | file => cases h
    | link => cases h
  | file =>
    cases e with
    | file => exact .file _ _
    | directory => cases h
    | link => cases h

theorem SameEntry.map_emptied {e e' : Option Entry} (h : SameEntry e e') :
    e.map emptied = e'.map emptied := by
  cases h <;> rfl

/-- Directories that are abreast are walked through side by side. -/
theorem Abreast.forall₂_below (h : Abreast before loc before' loc' fs fs') (names : Location) :
    List.Forall₂ (fun x y => x.1 = y.1 ∧ SameEntry (some x.2) (some y.2))
      (fs.below (loc ++ names)) (fs'.below (loc' ++ names)) := by
  have hkinds (more : Location) :
      (fs.get? (loc ++ names ++ more)).map emptied =
        (fs'.get? (loc' ++ names ++ more)).map emptied := by
    rw [List.append_assoc, List.append_assoc]
    exact (h.entries (names ++ more)).map_emptied
  have hmem {fs : FileSystem} {there more : Location} {e : Entry} :
      (more, e) ∈ (fs.below there).map (fun e => (e.1, emptied e.2)) ↔
        more ≠ [] ∧ (fs.get? (there ++ more)).map emptied = some e := by
    simp only [List.mem_map, Prod.mk.injEq, Prod.exists, mem_below_iff, Option.map_eq_some_iff]
    constructor
    · rintro ⟨_, f, ⟨hne, hf⟩, rfl, rfl⟩
      exact ⟨hne, f, hf, rfl⟩
    · rintro ⟨hne, f, hf, rfl⟩
      exact ⟨more, f, ⟨hne, hf⟩, rfl, rfl⟩
  have hsame : (fs.below (loc ++ names)).map (fun e => (e.1, emptied e.2)) =
      (fs'.below (loc' ++ names)).map fun e => (e.1, emptied e.2) := by
    have hordered (fs : FileSystem) (there : Location) :
        ((fs.below there).map fun e => (e.1, emptied e.2)).Pairwise fun e f => e.1 < f.1 :=
      List.pairwise_map.mpr (below_ordered fs there)
    refine eq_of_ordered (hordered fs _) (hordered fs' _) ?_
    rintro ⟨more, e⟩
    rw [hmem, hmem, hkinds]
  rw [← List.forall₂_eq_eq_eq, List.forall₂_map_left_iff, List.forall₂_map_right_iff] at hsame
  refine Outcomes.forall₂_imp_mem hsame fun x y hy he => ?_
  obtain ⟨hname, hkind⟩ := Prod.mk.inj he
  refine ⟨hname, sameEntry_of_emptied hkind ?_⟩
  obtain ⟨more, e⟩ := y
  obtain ⟨_, hget⟩ := mem_below_iff.mp hy
  rw [List.append_assoc] at hget
  rintro target rfl
  exact h.right.plain _ target hget

/-- The directory itself is there, however far above it a lineage reaches. -/
theorem runOn_createLineage_home (hs : Site before a loc) (hi : Confined before loc fs)
    (count : Nat) : (createLineage (lineage count a)).runOn fs = (.ok (), fs) := by
  cases count with
  | zero => rfl
  | succ count =>
    rw [lineage]
    split
    · rfl
    · have hcreate := runOn_createDirectory_home hs hi
      have hthere : (Files.isDirectory (ε := FileError) a).runOn fs = (.ok true, fs) := by
        rw [runOn_isDirectory, resolve_home hs hi]
        rfl
      rw [runOn_createLineage, hcreate]
      dsimp only
      rw [runOn_ensureDirectory, hcreate]
      dsimp only
      rw [hthere]

section Sites

variable (hs : Site before a loc) (hs' : Site before' a' loc')
include hs hs'

theorem Abreast.resolve (h : Abreast before loc before' loc' fs fs') (hne : names ≠ [])
    (hn : ∀ n ∈ names, n.isProper = true) (hf : Fits a names) (hf' : Fits a' names)
    (follow : Bool) :
    SameEnd Eq (SamePlace loc loc' names) (resolve fs follow (below a names))
      (resolve fs' follow (below a' names)) := by
  obtain ⟨left, hleft⟩ := resolve_eq_walk hs h.left.toConfined hne hn hf follow
  obtain ⟨right, hright⟩ := resolve_eq_walk hs' h.right.toConfined hne hn hf' follow
  rw [hleft, hright]
  have hhome : fs.get? (loc ++ []) = some .directory := by rw [List.append_nil, h.left.made]
  have hhome' : fs'.get? (loc' ++ []) = some .directory := by rw [List.append_nil, h.right.made]
  have hwalk := @Abreast.walk _ _ _ _ _ _ names h _ hhome hhome' follow left right
  simpa using hwalk

theorem inStep_look (hne : names ≠ []) (hn : ∀ n ∈ names, n.isProper = true) (hf : Fits a names)
    (hf' : Fits a' names) (follow : Bool) :
    InStep (Abreast before loc before' loc') Eq (SamePlace loc loc' names)
      (look follow (below a names)) (look follow (below a' names)) :=
  fun _ _ h => ⟨h.resolve hs hs' hne hn hf hf' follow, h⟩

theorem inStep_createDirectory (hne : names ≠ []) (hn : ∀ n ∈ names, n.isProper = true)
    (hf : Fits a names) (hf' : Fits a' names) :
    InStep (Abreast before loc before' loc') Eq Any (createDirectory (below a names))
      (createDirectory (below a' names)) := by
  unfold createDirectory
  refine .bind (inStep_look hs hs' hne hn hf hf' false) ?_
  rintro ⟨there, e⟩ ⟨there', e'⟩ ⟨rfl, rfl, he⟩
  cases he with
  | none => exact inStep_putEntry hne hn .directory
  | directory => exact .throw rfl
  | file => exact .throw rfl

theorem inStep_isDirectory {ε δ : Type} {E : ε → δ → Prop} (hne : names ≠ [])
    (hn : ∀ n ∈ names, n.isProper = true) (hf : Fits a names) (hf' : Fits a' names) :
    InStep (Abreast before loc before' loc') E Eq (Files.isDirectory (below a names))
      (Files.isDirectory (below a' names)) := by
  intro fs fs' h
  unfold EndAlike
  rw [runOn_isDirectory, runOn_isDirectory]
  refine ⟨.ok ?_, h⟩
  have hplace := h.resolve hs hs' hne hn hf hf' true
  generalize Files.resolve fs true (below a names) = r at hplace
  generalize Files.resolve fs' true (below a' names) = r' at hplace
  cases hplace with
  | ok hp => exact hp.entries.isDirectory
  | error => rfl

/-- The induction is on the names, from the last one on; how far above the directory the lineages
reach does not matter. -/
theorem inStep_createLineage (hn : ∀ n ∈ names, n.isProper = true) (hf : Fits a names)
    (hf' : Fits a' names) {count count' : Nat} (hcount : names.length < count)
    (hcount' : names.length < count') :
    InStep (Abreast before loc before' loc') Eq Any
      (createLineage (lineage count (below a names)))
      (createLineage (lineage count' (below a' names))) := by
  induction names using List.reverseRecOn generalizing count count' with
  | nil =>
    intro fs fs' h
    unfold EndAlike
    rw [below_nil, below_nil, runOn_createLineage_home hs h.left.toConfined,
      runOn_createLineage_home hs' h.right.toConfined]
    exact ⟨.ok trivial, h⟩
  | append_singleton front n ih =>
    rw [List.length_append, List.length_singleton] at hcount hcount'
    obtain ⟨count, rfl⟩ := Nat.exists_eq_succ_of_ne_zero (Nat.ne_zero_of_lt hcount)
    obtain ⟨count', rfl⟩ := Nat.exists_eq_succ_of_ne_zero (Nat.ne_zero_of_lt hcount')
    rw [lineage, lineage, parent?_joined hs.settled hn (by simp),
      parent?_joined hs'.settled hn (by simp), List.dropLast_concat]
    have hmade := inStep_createDirectory hs hs' (by simp) hn hf hf'
    have hthere := inStep_isDirectory (E := Eq (α := FileError)) hs hs' (by simp) hn hf hf'
    have hfront : InStep (Abreast before loc before' loc') Eq Any
        (createLineage (lineage count (below a front)))
        (createLineage (lineage count' (below a' front))) :=
      ih (fun m hm => hn m (List.mem_append_left _ hm)) hf.front hf'.front (by omega) (by omega)
    exact hmade.createLineage (hmade.ensureDirectory hthere) hfront

theorem inStep_createDirectories (hn : ∀ n ∈ names, n.isProper = true) (hf : Fits a names)
    (hf' : Fits a' names) :
    InStep (Abreast before loc before' loc') Eq Any (createDirectories (below a names))
      (createDirectories (below a' names)) :=
  inStep_createLineage hs hs' hn hf hf' (hs.settled.length_lt names)
    (hs'.settled.length_lt names)

theorem inStep_putFile (hne : names ≠ []) (hn : ∀ n ∈ names, n.isProper = true)
    (hf : Fits a names) (hf' : Fits a' names) (content content' : Content) :
    InStep (Abreast before loc before' loc') Eq Any (putFile (below a names) content)
      (putFile (below a' names) content') := by
  have hend := (hs.settled.below hn).endsInSlash
  have hend' := (hs'.settled.below hn).endsInSlash
  unfold putFile checkFile
  rw [hend, hend']
  refine .bind (inStep_look hs hs' hne hn hf hf' true) ?_
  rintro ⟨there, e⟩ ⟨there', e'⟩ ⟨rfl, rfl, he⟩
  cases he with
  | none => exact inStep_fillFile hne hn content content'
  | directory => exact .throw rfl
  | file => exact inStep_fillFile hne hn content content'

theorem inStep_listTree_below (hne : names ≠ []) (hn : ∀ n ∈ names, n.isProper = true)
    (hf : Fits a names) (hf' : Fits a' names) :
    InStep (Abreast before loc before' loc') Eq
      (List.Forall₂ fun x y => x.1 = y.1 ∧ SameEntry (some x.2) (some y.2))
      (listTree (below a names)) (listTree (below a' names)) := by
  unfold listTree
  refine .bind (inStep_look hs hs' hne hn hf hf' true) ?_
  rintro ⟨there, e⟩ ⟨there', e'⟩ ⟨rfl, rfl, he⟩
  cases he with
  | none => exact .throw rfl
  | directory => exact .get fun fs fs' h => .pure (h.forall₂_below names)
  | file => exact .get fun fs fs' h => .pure (h.forall₂_below names)

/-- A name that is too long is refused wherever it is to go. -/
theorem inStep_putFile_long (hn : ∀ n ∈ names, n.isProper = true) {n : FileName}
    (hmem : n ∈ names) (hlong : nameLimit < n.length) (content content' : Content) :
    InStep (Abreast before loc before' loc') Any Any (putFile (below a names) content)
      (putFile (below a' names) content') := by
  intro fs fs' h
  unfold putFile EndAlike
  rw [runOn_bind, runOn_bind, runOn_look, runOn_look]
  cases hr : Files.resolve fs true (below a names) with
  | ok p =>
    have := h.left.toConfined.short_below hs hn hr n hmem
    omega
  | error e =>
    cases hr' : Files.resolve fs' true (below a' names) with
    | ok p =>
      have := h.right.toConfined.short_below hs' hn hr' n hmem
      omega
    | error e' => exact ⟨.error trivial, h⟩

end Sites

end Screenwright.Proofs.SideBySide
