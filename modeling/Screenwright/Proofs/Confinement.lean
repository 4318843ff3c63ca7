import Screenwright.Export.Assemble
import Screenwright.Export.Package
import Screenwright.Export.Workspace
import Screenwright.Proofs.Addresses
import Screenwright.Proofs.Running
import Screenwright.Proofs.Walks

namespace Screenwright.Proofs.Confinement
open Files FileSystem FileAction Address Entries Walks Addresses Running

/-- Names behind the address of a directory lead on from there. -/
theorem resolve_joined_iff {fs : FileSystem} {root : Address} {there names : Location}
    {ends follow : Bool}
    (hleads : Leads fs ends linkLimit root.origin (segments root.written) ⟨there, some .directory⟩)
    (hne : names ≠ []) (hn : ∀ n ∈ names, n.isProper = true) :
    ∃ left, ∀ p, resolve fs follow (root.joinLocation names) = .ok p ↔
      0 ∉ (root.joinLocation names).written ∧ (root.joinLocation names).written ≠ [] ∧
        (root.joinLocation names).written.length ≤ addressLimit ∧
          Leads fs follow left there (names.map .name) p := by
  obtain ⟨horigin, hsteps⟩ := steps_joinLocation root hn
  obtain ⟨left, hmore⟩ := hleads.append rfl
  have hwalk := hmore follow (names.map .name) (by simpa using hne)
  refine ⟨left, fun p => ?_⟩
  rw [resolve_ok_iff, horigin, hsteps]
  constructor
  · rintro ⟨hz, hnil, hl, hw⟩
    exact ⟨hz, hnil, hl, leads_of_walk (hwalk ▸ walk_of_leads hw)⟩
  · rintro ⟨hz, hnil, hl, hw⟩
    exact ⟨hz, hnil, hl, leads_of_walk (hwalk.trans (walk_of_leads hw))⟩

/-- An address at which a directory can be made: nothing is there yet. -/
structure Site (before : FileSystem) (a : Address) (loc : Location) : Prop where
  settled : Settled a
  free : resolve before false a = .ok ⟨loc, none⟩

/-- The directory at a location has been made, and all that has changed since is in it. -/
structure Confined (before : FileSystem) (loc : Location) (fs : FileSystem) : Prop where
  outside : ∀ other, ¬ loc <+: other → fs.get? other = before.get? other
  made : fs.get? loc = some .directory
  plain : ∀ names target, fs.get? (loc ++ names) ≠ some (.link target)

variable {before fs : FileSystem} {a : Address} {loc : Location}

theorem Site.empty (h : Site before a loc) : before.get? loc = none :=
  Leads.none_at (resolve_ok_iff.mp h.free).2.2.2 rfl

theorem Confined.start (h : Site before a loc)
    (hadmits : before.admits loc .directory = true) :
    Confined before loc (before.put loc .directory) := by
  constructor
  · intro other hout
    have hne : other ≠ loc := fun he => hout (he ▸ List.prefix_refl _)
    rw [get?_put hadmits, if_neg hne]
  · rw [get?_put hadmits, if_pos rfl]
  · intro names target
    rw [get?_put hadmits]
    split
    · simp
    · rw [get?_below h.empty (List.prefix_append loc names)]
      simp

theorem Confined.grows (hs : Site before a loc) (h : Confined before loc fs) : Grows before fs := by
  intro other e he
  have hout : ¬ loc <+: other := fun hp => by
    rw [get?_below hs.empty hp] at he
    cases he
  rw [h.outside other hout, he]

/-- The address of the directory leads to it. -/
theorem Confined.leads (hs : Site before a loc) (h : Confined before loc fs) :
    Leads fs false linkLimit a.origin (segments a.written) ⟨loc, some .directory⟩ :=
  (resolve_ok_iff.mp hs.free).2.2.2.made (h.grows hs) rfl h.made

theorem Confined.resolve_home (hs : Site before a loc) (h : Confined before loc fs) :
    resolve fs false a = .ok ⟨loc, some .directory⟩ := by
  obtain ⟨hz, hne, hl, _⟩ := resolve_ok_iff.mp hs.free
  exact resolve_ok_iff.mpr ⟨hz, hne, hl, h.leads hs⟩

theorem Confined.leads_below (hs : Site before a loc) (h : Confined before loc fs)
    {names : Location} (hne : names ≠ []) (hn : ∀ n ∈ names, n.isProper = true) {follow : Bool}
    {p : Place} (hp : resolve fs follow (below a names) = .ok p) :
    ∃ left, Leads fs follow left loc (names.map .name) p := by
  rw [← joinLocation_below hs.settled hn] at hp
  obtain ⟨left, hiff⟩ := resolve_joined_iff (h.leads hs) hne hn
  exact ⟨left, ((hiff p).mp hp).2.2.2⟩

/-- What an address below the directory leads to lies in the directory, under its names. -/
theorem Confined.resolve_below (hs : Site before a loc) (h : Confined before loc fs)
    {names : Location} (hne : names ≠ []) (hn : ∀ n ∈ names, n.isProper = true) {follow : Bool}
    {p : Place} (hp : resolve fs follow (below a names) = .ok p) :
    p = ⟨loc ++ names, fs.get? (loc ++ names)⟩ := by
  obtain ⟨left, hleads⟩ := h.leads_below hs hne hn hp
  exact hleads.names h.made fun front _ => h.plain front

theorem Confined.short_below (hs : Site before a loc) (h : Confined before loc fs)
    {names : Location} (hn : ∀ n ∈ names, n.isProper = true) {follow : Bool} {p : Place}
    (hp : resolve fs follow (below a names) = .ok p) : ∀ n ∈ names, n.length ≤ nameLimit := by
  by_cases hne : names = []
  · simp [hne]
  · obtain ⟨left, hleads⟩ := h.leads_below hs hne hn hp
    exact hleads.short fun front _ => h.plain front

theorem Confined.resolve_found (hs : Site before a loc) (h : Confined before loc fs)
    {names : Location} (hn : ∀ n ∈ names, n.isProper = true) {p : Place}
    (hp : resolve fs false (below a names) = .ok p) :
    p = ⟨loc ++ names, fs.get? (loc ++ names)⟩ := by
  by_cases hne : names = []
  · subst hne
    rw [below_nil, h.resolve_home hs] at hp
    cases hp
    simp [h.made]
  · exact h.resolve_below hs hne hn hp

theorem Confined.put (h : Confined before loc fs) {names : Location} {e : Entry}
    (ha : fs.admits (loc ++ names) e = true) (hd : names = [] → e = .directory)
    (hl : ∀ target, e ≠ .link target) : Confined before loc (fs.put (loc ++ names) e) := by
  constructor
  · intro other hout
    have hne : other ≠ loc ++ names := fun he => hout ⟨names, he.symm⟩
    rw [get?_put ha, if_neg hne, h.outside other hout]
  · rw [get?_put ha]
    split
    · next he => rw [hd (by simpa using he)]
    · exact h.made
  · intro more target
    rw [get?_put ha]
    split
    · exact fun he => hl target (Option.some.inj he)
    · exact h.plain more target

theorem runs_putEntry_file {P : FileSystem → Prop} {names : Location} (hne : names ≠ [])
    (content : Content) :
    Runs (Confined before loc) P (putEntry (loc ++ names) (.file content))
      fun _ fs => fs.get? (loc ++ names) = some (.file content) := by
  refine runs_putEntry fun fs hi _ ha => ⟨hi.put ha (absurd · hne) (by simp), ?_⟩
  rw [get?_put ha, if_pos rfl]

theorem keeps_createDirectory (hs : Site before a loc) {names : Location}
    (hn : ∀ n ∈ names, n.isProper = true) :
    Keeps (Confined before loc) (createDirectory (below a names)) := by
  intro fs hi
  rcases createDirectory_cases (below a names) fs with ⟨e, he⟩ | ⟨there, hr, ha, he⟩
  · rwa [he]
  · have hplace := hi.resolve_found hs hn hr
    obtain rfl : there = loc ++ names := congrArg Place.location hplace
    rw [he]
    exact hi.put ha (fun _ => rfl) (by simp)

theorem runOn_createDirectory_home (hs : Site before a loc) (h : Confined before loc fs) :
    (createDirectory a).runOn fs = (.error .exists, fs) := by
  unfold createDirectory
  rw [runOn_bind, runOn_look, h.resolve_home hs]
  rfl

/-- The directory itself is there, so nothing above it is made. -/
theorem keeps_createLineage_home (hs : Site before a loc) (above : List Address) :
    Keeps (Confined before loc) (createLineage (a :: above)) := by
  intro fs hi
  have hhome := keeps_createDirectory hs (List.forall_mem_nil _)
  rw [below_nil] at hhome
  rw [runOn_createLineage, runOn_createDirectory_home hs hi]
  exact hhome.ensureDirectory fs hi

theorem keeps_createLineage (hs : Site before a loc) {names : Location}
    (hn : ∀ n ∈ names, n.isProper = true) (count : Nat) :
    Keeps (Confined before loc) (createLineage (lineage count (below a names))) := by
  induction count generalizing names with
  | zero => exact .pure ()
  | succ count ih =>
    by_cases hne : names = []
    · subst hne
      rw [below_nil, lineage]
      split
      · exact .pure ()
      · exact keeps_createLineage_home hs _
    · rw [lineage, parent?_joined hs.settled hn hne]
      have hfront := ih fun n hmem => hn n ((List.dropLast_sublist names).subset hmem)
      exact (keeps_createDirectory hs hn).createLineage hfront

theorem keeps_createDirectories (hs : Site before a loc) {names : Location}
    (hn : ∀ n ∈ names, n.isProper = true) :
    Keeps (Confined before loc) (createDirectories (below a names)) :=
  keeps_createLineage hs hn _

theorem runs_putFile (hs : Site before a loc) {names : Location} (hne : names ≠ [])
    (hn : ∀ n ∈ names, n.isProper = true) (content : Content) {P : FileSystem → Prop} :
    Runs (Confined before loc) P (putFile (below a names) content)
      fun _ fs => fs.get? (loc ++ names) = some (.file content) := by
  have hfill (place : Place) (found : Content) :
      Runs (Confined before loc)
        (fun fs => resolve fs true (below a names) = .ok place ∧ found = content)
        (fillFile place.location found)
        fun _ fs => fs.get? (loc ++ names) = some (.file content) := by
    intro fs hi hp
    rw [hi.resolve_below hs hne hn hp.1, hp.2]
    have hempty : Runs (Confined before loc) (fun _ => True) _ _ := runs_putEntry_file hne .empty
    exact hempty.bind (fun _ => runs_putEntry_file hne content) fs hi trivial
  unfold putFile
  refine (runs_look true _).bind fun place => ?_
  split
  · exact .throw _
  · refine (runs_checkFile _ content).bind fun found => (hfill place found).then ?_
    exact fun fs _ hp => ⟨hp.1.2, hp.2⟩
  · split
    · exact .throw _
    · exact (hfill place content).then fun fs _ hp => ⟨hp.2, rfl⟩

theorem keeps_putFile (hs : Site before a loc) {names : Location} (hne : names ≠ [])
    (hn : ∀ n ∈ names, n.isProper = true) (content : Content) :
    Keeps (Confined before loc) (putFile (below a names) content) :=
  (runs_putFile hs hne hn content).keeps

theorem keeps_copyFile (hs : Site before a loc) {names : Location} (hne : names ≠ [])
    (hn : ∀ n ∈ names, n.isProper = true) (source : Address) :
    Keeps (Confined before loc) (copyFile source (below a names)) :=
  .bind (.bind (keeps_contentAt source) fun _ => .pure _) fun _ =>
    .bind (keeps_putFile hs hne hn _) fun _ =>
      .bind (keeps_contentAt source) fun content => keeps_putFile hs hne hn content

end Screenwright.Proofs.Confinement
