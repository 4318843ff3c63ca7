import Screenwright.Proofs.Skeletons

namespace Screenwright.Proofs.Packing
open Files FileSystem FileAction Address Export
open Addresses Running Confinement Building Trees Listing Skeletons

variable {before : FileSystem} {a : Address} {loc names : Location}

def entryOf (level : Int64) (names : Location) : Entry → Archive.Entry Content
  | .file content => ⟨entryName names, methodAt level, some content⟩
  | _ => ⟨entryName names ++ "/", .stored, none⟩

def isPacked : Entry → Bool
  | .link _ => false
  | _ => true

theorem archiveEntry_ok {level : Int64} {e : Entry} {found : Option (Archive.Entry Content)}
    (h : archiveEntry level names e = .ok found) :
    found = if isPacked e then some (entryOf level names e) else none := by
  cases e with
  | directory =>
    cases h
    rfl
  | link target =>
    cases h
    rfl
  | file content =>
    simp only [archiveEntry] at h
    split at h
    · cases h
      rfl
    · cases h

theorem addEntry_ok {archive more : Archive} {e : Archive.Entry Content}
    (h : addEntry archive e = .ok more) (hnodup : (archive.map (·.name)).Nodup) :
    more = archive ++ [e] ∧ (more.map (·.name)).Nodup := by
  unfold addEntry at h
  split at h
  · cases h
  · next hnew =>
    cases h
    refine ⟨rfl, ?_⟩
    rw [List.map_append, List.nodup_append]
    refine ⟨hnodup, List.nodup_singleton _, ?_⟩
    intro name hname other hother heq
    obtain ⟨f, hf, rfl⟩ := List.mem_map.mp hname
    rw [List.map_singleton, List.mem_singleton] at hother
    exact hnew (List.any_eq_true.mpr ⟨f, hf, by simp [heq, hother]⟩)

def packed (level : Int64) (entries : List (Location × Entry)) : Archive :=
  (entries.filter fun e => isPacked e.2).map fun e => entryOf level e.1 e.2

/-- Everything but links is packed, in order, and no name comes twice. -/
theorem packEntries_ok {level : Int64} {deadline : Deadline} {target : Address}
    {entries : List (Location × Entry)} {unit : Nat} {archive es : Archive}
    (hnodup : (archive.map (·.name)).Nodup) {fs : FileSystem}
    (h : ((packEntries level deadline target unit archive entries).runOn fs).1 = .ok es) :
    es = archive ++ packed level entries ∧ (es.map (·.name)).Nodup := by
  induction entries generalizing unit archive fs with
  | nil =>
    cases h
    exact ⟨by simp [packed], hnodup⟩
  | cons e entries ih =>
    obtain ⟨names, e⟩ := e
    unfold packEntries at h
    obtain ⟨_, _, _, h⟩ := bind_ok h
    obtain ⟨found, _, hfound, h⟩ := bind_ok h
    have hentry := archiveEntry_ok (congrArg Prod.fst hfound)
    cases hkind : isPacked e with
    | false =>
      rw [hkind] at hentry
      subst hentry
      obtain ⟨hes, hdistinct⟩ := ih hnodup h
      exact ⟨by simpa [packed, hkind] using hes, hdistinct⟩
    | true =>
      rw [hkind] at hentry
      subst hentry
      obtain ⟨more, _, hmore, h⟩ := bind_ok h
      obtain ⟨_, _, _, h⟩ := bind_ok h
      obtain ⟨hadded, hnodup'⟩ := addEntry_ok (congrArg Prod.fst hmore) hnodup
      obtain ⟨hes, hdistinct⟩ := ih hnodup' h
      exact ⟨by simpa [packed, hkind, hadded] using hes, hdistinct⟩

/-- Entries of an archive, each once and in the order of a walk. -/
structure Lists (level : Int64) (tree : Tree) (es : Archive) : Prop where
  items : ∃ items : List (Location × Entry), es = items.map (fun e => entryOf level e.1 e.2) ∧
    items.Pairwise (fun e f => e.1 < f.1) ∧
    ∀ names e, (names, e) ∈ items ↔ names ≠ [] ∧ tree names = some e
  nodup : (es.map (·.name)).Nodup

theorem copied_eq {tree : Tree} {e : Entry} (hne : names ≠ []) :
    copied tree names = some e ↔ tree names = some e ∧ isPacked e = true := by
  rw [copied, if_neg hne]
  exact Option.filter_eq_some_iff

/-- The entries of a directory are those of what lies in it, without links. -/
theorem lists_packed {level : Int64} {deadline : Deadline} {target : Address}
    {fs after : FileSystem} {es : Archive}
    (h : ((packEntries level deadline target 0 [] (fs.below loc)).runOn after).1 = .ok es) :
    Lists level (copied (inside loc fs)) es := by
  obtain ⟨hes, hnodup⟩ := packEntries_ok (by simp) h
  refine ⟨⟨_, hes, (below_ordered fs loc).sublist List.filter_sublist, fun names e => ?_⟩, hnodup⟩
  rw [List.mem_filter, mem_below_iff, and_assoc]
  exact and_congr_right fun hne => by rw [copied_eq hne, inside]

theorem Lists.congr {level : Int64} {tree tree' : Tree} {es : Archive} (h : Lists level tree es)
    (hsame : ∀ names, names ≠ [] → tree' names = tree names) : Lists level tree' es := by
  obtain ⟨⟨items, hes, hordered, hmem⟩, hnodup⟩ := h
  refine ⟨⟨items, hes, hordered, fun names e => (hmem names e).trans ?_⟩, hnodup⟩
  exact and_congr_right fun hne => by rw [hsame names hne]

theorem lists_below {level : Int64} {deadline : Deadline} {target : Address} {fs after : FileSystem}
    {es : Archive} (hi : Confined before loc fs)
    (h : ((packEntries level deadline target 0 [] (fs.below (loc ++ names))).runOn after).1 =
      .ok es) : Lists level (inside (loc ++ names) fs) es := by
  refine (lists_packed h).congr fun more hne => ?_
  rw [copied, if_neg hne, inside, List.append_assoc]
  -- There are no links in a workspace.
  cases he : fs.get? (loc ++ (names ++ more)) with
  | none => rfl
  | some e =>
    cases e with
    | link target => exact absurd he (hi.plain _ target)
    | file _ | directory => rfl

/-- A file that is put beside a directory in a workspace leaves the directory as it is. -/
theorem runs_putArchive (hs : Site before a loc) {front : Location} (hne : names ≠ [])
    (hn : ∀ n ∈ names, n.isProper = true) (hbeside : ∀ more, front ++ more ≠ names) (tree : Tree) :
    Runs (Confined before loc) (fun fs => inside (loc ++ front) fs = tree)
      (putFile (below a names) (.archive []))
      fun _ fs => (inside (loc ++ front) fs = tree ∧ Holds (loc ++ names) [] fs) ∧
        Reached before loc (below a names) := by
  intro fs hi hp
  obtain ⟨hi', hq⟩ := runs_putFile_inside (inside loc fs) hs hne hn (.archive []) fs hi rfl
  refine ⟨hi', fun u hu => ?_⟩
  obtain ⟨⟨hin, _⟩, hreached⟩ := hq u hu
  refine ⟨⟨?_, ?_⟩, hreached⟩
  · rw [← hp]
    funext more
    have hmore := congrFun hin (front ++ more)
    rw [place, if_neg (hbeside more)] at hmore
    simpa [inside] using hmore
  · have hfile := congrFun hin names
    rwa [place, if_pos rfl] at hfile

/-- A directory in a workspace is packed as it is into a file beside it. -/
theorem runs_package_lists (hs : Site before a loc) {front : Location} (hne : names ≠ [])
    (hn : ∀ n ∈ names, n.isProper = true) (hfne : front ≠ [])
    (hf : ∀ n ∈ front, n.isProper = true) (hbeside : ∀ more, front ++ more ≠ names)
    (level : Int64) (deadline : Deadline) (tree : Tree) :
    Runs (Confined before loc) (fun fs => inside (loc ++ front) fs = tree)
      (package level deadline (below a front) (below a names))
      fun count fs => ∃ es, Holds (loc ++ names) es fs ∧ es.length = count ∧
        Lists level tree es ∧ Reached before loc (below a names) := by
  unfold package
  refine (runs_putArchive hs hne hn hbeside tree).mapError.bind fun _ =>
    runs_get.bind fun found => ?_
  split
  · exact (runs_ofExcept _).bind fun _ => .throw _
  · next entries after hlist =>
    intro fs hi hp
    obtain ⟨⟨⟨htree, hholds⟩, hreached⟩, rfl⟩ := hp
    obtain ⟨p, hr, rfl⟩ := listTree_ok (congrArg Prod.fst hlist)
    rw [hi.resolve_below hs hfne hf hr]
    have hpack := runs_packEntries hs hne hn level deadline (found.below (loc ++ front)) 0 []
    obtain ⟨hkeep, hq⟩ := hpack found hi hholds
    rw [runOn_bind]
    cases hes : (packEntries level deadline (below a names) 0 []
        (found.below (loc ++ front))).runOn found with
    | mk r last =>
      rw [hes] at hkeep hq
      cases r with
      | error e => exact ⟨hkeep, fun _ h => nomatch h⟩
      | ok es =>
        refine ⟨hkeep, fun count h => ?_⟩
        cases h
        exact ⟨es, hq es rfl, rfl, htree ▸ lists_below hi (congrArg Prod.fst hes), hreached⟩

end Screenwright.Proofs.Packing
