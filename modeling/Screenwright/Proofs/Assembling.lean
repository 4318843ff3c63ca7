import Screenwright.Proofs.Cleanup
import Screenwright.Proofs.Packing

namespace Screenwright.Proofs.Assembling
open Files FileSystem FileAction Address Screen Flutter Export
open Entries Walks Addresses Running Confinement Building Sources Cleanup Identifiers
open Trees Skeletons Packing Decoding Outcomes

def located (names : List String) : Location := names.map Text.bytesOf

def pageNames (p : Page) : Location := located ["lib", "screens", p.name.fileName]

/-- The files that are generated for a project, by the names that lead to them. -/
def generated (main : String) (ps : List Page) : List (Location × String) :=
  (located ["lib", "main.dart"], main) :: ps.map fun p => (pageNames p, p.source)

/-- A tree with generated files on top of it, and the directories that they lie in. -/
def overlaid (files : List (Location × String)) (tree : Tree) : Tree := fun names =>
  match files.find? (·.1 = names) with
  | some f => some (.file (.ofText f.2))
  | none => if names <+: located ["lib", "screens"] then some .directory else tree names

theorem located_inj {names others : List String} (h : located names = located others) :
    names = others := List.map_injective_iff.mpr (fun _ _ => bytesOf_inj) h

def placePages (ps : List Page) (tree : Tree) : Tree :=
  ps.foldl (fun tree p => place (pageNames p) (.file (.ofText p.source)) tree) tree

variable {ps : List Page} {main : String} {tree : Tree}

theorem pageNames_inj {p q : Page} (h : pageNames p = pageNames q) :
    p.name.fileName = q.name.fileName := by
  simpa using located_inj h

theorem placePages_eq (h : (ps.map fun p => p.name.fileName).Nodup) (tree : Tree)
    (names : Location) :
    placePages ps tree names =
      match ps.find? (pageNames · = names) with
      | some p => some (.file (.ofText p.source))
      | none => tree names := by
  unfold placePages
  induction ps generalizing tree with
  | nil => rfl
  | cons p ps ih =>
    obtain ⟨hp, hps⟩ := List.nodup_cons.mp h
    rw [List.foldl_cons, ih hps]
    by_cases he : pageNames p = names
    · have hnone : ps.find? (pageNames · = names) = none := by
        refine List.find?_eq_none.mpr fun q hq hqn => hp ?_
        have hname : pageNames q = pageNames p := by simpa [he] using hqn
        exact List.mem_map.mpr ⟨q, hq, pageNames_inj hname⟩
      rw [hnone, List.find?_cons_of_pos (by simpa using he)]
      simp [place, he]
    · rw [List.find?_cons_of_neg (by simpa using he)]
      cases ps.find? (pageNames · = names) with
      | some q => rfl
      | none => exact if_neg (Ne.symm he)

theorem pages_spec {project : Project} (h : pages project.routes project = .ok ps) :
    ps.length = project.screens.length ∧
      ∀ i screen p, project.screens[i]? = some screen → ps[i]? = some p →
        PageOf project i screen p := by
  obtain ⟨qs, hqs, hspec⟩ := pages_ok project
  obtain rfl : ps = qs := Except.ok.inj (h.symm.trans hqs)
  exact hspec

theorem fileNames_pages {project : Project} (h : pages project.routes project = .ok ps) :
    (ps.map fun p => p.name.fileName).Nodup := by
  obtain ⟨hlen, hall⟩ := pages_spec h
  have hfiles := RouteNames.fileNames_nodup project.labels
  rw [← Project.routes, entries_pages hlen hall, List.map_map] at hfiles
  exact hfiles

theorem generated_nodup {project : Project} (h : pages project.routes project = .ok ps)
    (main : String) : ((generated main ps).map Prod.fst).Nodup := by
  unfold generated
  rw [List.map_cons, List.map_map, List.nodup_cons]
  constructor
  · intro hmem
    obtain ⟨p, _, hp⟩ := List.mem_map.mp hmem
    have hnames := located_inj hp
    simp at hnames
  · have hdistinct := List.pairwise_map.mp (fileNames_pages h)
    exact List.pairwise_map.mpr (hdistinct.imp fun hne he => hne (pageNames_inj he))

/-- The order in which files are generated does not matter, since they do not meet. -/
theorem overlaid_eq (h : (ps.map fun p => p.name.fileName).Nodup) {base : Tree}
    (hbase : ∀ names ≠ [], base names = tree names) :
    place (located ["lib", "main.dart"]) (.file (.ofText main))
        (placePages ps (clear (located ["lib", "screens"]) base)) =
      overlaid (generated main ps) tree := by
  funext names
  unfold overlaid generated place
  split
  · next he => rw [List.find?_cons_of_pos (by simpa using he.symm)]
  · next hmain =>
    have hne : ¬ located ["lib", "main.dart"] = names := fun he => hmain he.symm
    rw [List.find?_cons_of_neg (by simpa using hne), List.find?_map, placePages_eq h]
    simp only [Function.comp_def]
    cases ps.find? (pageNames · = names) with
    | some p => rfl
    | none =>
      simp only [Option.map_none, clear]
      split
      · rfl
      · next hp => exact hbase names fun he => hp (he ▸ List.nil_prefix)

variable {before start : FileSystem} {a : Address} {loc front : Location}

theorem runs_writePage (hs : Site before a loc) (hf : ∀ n ∈ front, n.isProper = true)
    (deadline : Deadline) (labels : List String) (screen : Screen) (index : Nat) (base : Tree) :
    Runs (Confined before loc) (fun fs => inside (loc ++ front) fs = base)
      (writePage deadline (.resolve labels) (below a front) screen index)
      fun _ fs => ∃ p, page (.resolve labels) screen (nameFor (.resolve labels) screen index) =
        .ok p ∧ inside (loc ++ front) fs = place (pageNames p) (.file (.ofText p.source)) base := by
  unfold writePage
  refine (runs_ofExcept _).bind fun _ => (runs_ofExcept _).bind fun p => ?_
  have hgiven : Runs (Confined before loc)
      (fun fs => page (.resolve labels) screen (nameFor (.resolve labels) screen index) = .ok p ∧
        inside (loc ++ front) fs = base)
      (do
        FileAction.mapError (ExportError.file ((below a front).joinText p.path))
          (putFile ((below a front).joinText p.path) (.ofText p.source))
        return ScreenEntry.mk p.label p.name)
      fun _ fs => ∃ p, page (.resolve labels) screen (nameFor (.resolve labels) screen index) =
        .ok p ∧ inside (loc ++ front) fs =
          place (pageNames p) (.file (.ofText p.source)) base := by
    refine .given fun hmade => ?_
    have hclean : Clean p.name := name_of_page hmade ▸ clean_nameFor labels screen index
    have hspelt : Spelt p.path (pageNames p) := spelt_page hclean
    rw [joinText_below (hs.settled.below hf) hspelt, below_append]
    have hput : Runs (Confined before loc) (fun fs => inside (loc ++ front) fs = base)
        (putFile (below a (front ++ pageNames p)) (.ofText p.source))
        fun _ fs => inside (loc ++ front) fs =
          place (pageNames p) (.file (.ofText p.source)) base :=
      runs_place (Φ := (· = base)) (Ψ := (· = place (pageNames p) (.file (.ofText p.source)) base))
        hs hf hspelt.proper hspelt.ne_nil _ fun tree ht _ => by rw [ht]
    exact hput.mapError.bind fun _ => .pure fun fs h => ⟨p, hmade, h⟩
  exact hgiven.then fun fs _ hp => ⟨mapError_ok_iff.mp hp.2, hp.1.1⟩

theorem runs_writePages (hs : Site before a loc) (hf : ∀ n ∈ front, n.isProper = true)
    (deadline : Deadline) (labels : List String) (screens : List (Screen × Nat)) (base : Tree) :
    Runs (Confined before loc) (fun fs => inside (loc ++ front) fs = base)
      (screens.mapM fun (screen, index) =>
        writePage deadline (.resolve labels) (below a front) screen index)
      fun _ fs => ∃ ps, (screens.mapM fun (screen, index) =>
          page (.resolve labels) screen (nameFor (.resolve labels) screen index)) = .ok ps ∧
        inside (loc ++ front) fs = placePages ps base := by
  induction screens generalizing base with
  | nil => exact .pure fun fs h => ⟨[], rfl, h⟩
  | cons s screens ih =>
    obtain ⟨screen, index⟩ := s
    rw [List.mapM_cons]
    refine (runs_writePage hs hf deadline labels screen index base).bind fun _ => ?_
    refine .exists fun p => .given fun hmade => (ih _).bind fun _ => .pure ?_
    rintro fs ⟨ps, hps, h⟩
    refine ⟨p :: ps, ?_, h⟩
    rw [List.mapM_cons]
    dsimp only
    rw [hmade, hps]
    rfl

/-- What is generated for a project once its skeleton is there. -/
theorem runs_generate (hs : Site before a loc) (hf : ∀ n ∈ front, n.isProper = true)
    (title : String) (deadline : Deadline) (project : Project) {base : Tree}
    (hbase : ∀ names ≠ [], base names = tree names) :
    Runs (Confined before loc) (fun fs => inside (loc ++ front) fs = base)
      (do
        FileAction.mapError
          (ExportError.file (below a (front ++ located ["lib", "screens"])))
          (createDirectories (below a (front ++ located ["lib", "screens"])))
        let entries ← project.screens.zipIdx.mapM fun (screen, index) =>
          writePage deadline project.routes (below a front) screen index
        FileAction.ofExcept (deadline.check project.screens.length)
        let main ← FileAction.ofExcept ((entryPoint title project.routes).mapError .source)
        FileAction.mapError
          (ExportError.file (below a (front ++ located ["lib", "main.dart"])))
          (putFile (below a (front ++ located ["lib", "main.dart"])) (.ofText main))
        return (⟨entries, (project.routes.home?.map Name.className).getD "",
          renamedScreens project.routes, [], 0⟩ : Report))
      fun _ fs => ∃ ps main, pages project.routes project = .ok ps ∧
        entryPoint title project.routes = .ok main ∧
        inside (loc ++ front) fs = overlaid (generated main ps) tree := by
  have hscreens : Runs (Confined before loc) (fun fs => inside (loc ++ front) fs = base)
      (createDirectories (below a (front ++ located ["lib", "screens"])))
      fun _ fs => inside (loc ++ front) fs = clear (located ["lib", "screens"]) base :=
    runs_clear (Φ := (· = base)) (Ψ := (· = clear (located ["lib", "screens"]) base))
      hs hf spelt_screensDir.proper fun tree ht => by rw [ht]
  refine hscreens.mapError.bind fun _ => ?_
  refine (runs_writePages hs hf deadline project.labels _ _).bind fun entries => ?_
  refine .exists fun ps => .given fun hps => (runs_ofExcept _).bind fun _ => ?_
  refine (runs_ofExcept _).bind fun main => ?_
  have hmain : Runs (Confined before loc)
      (fun fs => inside (loc ++ front) fs =
        placePages ps (clear (located ["lib", "screens"]) base))
      (putFile (below a (front ++ located ["lib", "main.dart"])) (.ofText main))
      fun _ fs => inside (loc ++ front) fs = overlaid (generated main ps) tree :=
    runs_place (Φ := (· = placePages ps (clear (located ["lib", "screens"]) base)))
      (Ψ := (· = overlaid (generated main ps) tree))
      hs hf spelt_entryPath.proper spelt_entryPath.ne_nil _ fun _ ht _ => by
        rw [ht]
        exact overlaid_eq (fileNames_pages hps) hbase
  refine Runs.then (P := fun fs => entryPoint title project.routes = .ok main ∧
    inside (loc ++ front) fs = placePages ps (clear (located ["lib", "screens"]) base)) ?_ ?_
  · exact .given fun h => hmain.mapError.bind fun _ => .pure fun fs hfs => ⟨ps, main, hps, h, hfs⟩
  · exact fun fs _ hp => ⟨mapError_ok_iff.mp hp.2, hp.1.1⟩

/-- What materializing a skeleton leaves is what it offers, unless it reaches into the workspace
itself. -/
theorem ends_materialized (hs : Site before a loc) (hf : ∀ n ∈ front, n.isProper = true)
    (hne : front ≠ []) (hstart : Confined before loc start)
    (hempty : ∀ names ≠ [], inside loc start names = none) (skeleton : Skeleton) :
    Ends start (skeleton.materialize (below a front)) (fun _ => True) fun _ fs =>
      Confined before loc fs ∧ ∃ tree, (Apart start loc skeleton → Offered start skeleton tree) ∧
        ∀ names ≠ [], inside (loc ++ front) fs names = tree names := by
  by_cases hapart : Apart start loc skeleton
  · refine (ends_materialize hs hf hne hstart hempty hapart).mono (fun _ h => h) ?_
    exact fun _ fs ⟨hi, tree, hoffered, htree⟩ => ⟨hi, tree, fun _ => hoffered, htree⟩
  · have hkept : Runs (Confined before loc) (fun _ => True) (skeleton.materialize (below a front))
        fun _ _ => True := (keeps_materialize hs hf skeleton).runs
    refine (hkept.ends hstart trivial).mono (fun _ _ => trivial) ?_
    exact fun _ fs ⟨hi, _⟩ => ⟨hi, _, fun ha => absurd ha hapart, fun _ _ => rfl⟩

theorem ends_assemble (hs : Site before a loc) (hf : ∀ n ∈ front, n.isProper = true)
    (hne : front ≠ []) (hstart : Confined before loc start)
    (hempty : ∀ names ≠ [], inside loc start names = none) (skeleton : Skeleton)
    (title : String) (deadline : Deadline) (project : Project) :
    Ends start (assemble title deadline project project.routes skeleton (below a front))
      (fun _ => True) fun _ fs => Confined before loc fs ∧
        ∃ tree, (Apart start loc skeleton → Offered start skeleton tree) ∧
          ∃ ps main, pages project.routes project = .ok ps ∧
            entryPoint title project.routes = .ok main ∧
            inside (loc ++ front) fs = overlaid (generated main ps) tree := by
  have hjoin {path : String} {more : Location} (hp : Spelt path more) :
      (below a front).joinText path = below a (front ++ more) := by
    rw [joinText_below (hs.settled.below hf) hp, below_append]
  unfold assemble
  simp only [hjoin spelt_screensDir, hjoin spelt_entryPath]
  refine (ends_materialized hs hf hne hstart hempty skeleton).bind ?_
  rintro _ fs ⟨hi, tree, hoffered, htree⟩
  refine ((runs_generate hs hf title deadline project htree).ends hi rfl).mono
    (fun _ _ => trivial) ?_
  exact fun _ after ⟨hi', hmade⟩ => ⟨hi', tree, hoffered, hmade⟩

/-- A finished archive in its workspace, which lists a tree with the generated files on top. -/
structure Packed (x : Exporter) (project : Project) (before : FileSystem) (a : Address)
    (loc : Location) (tree : Tree) (archive : ExportedArchive) (fs : FileSystem) : Prop where
  workspace : archive.workspace = ⟨a⟩
  reached : Reached before loc (below a [Text.bytesOf "archive.zip"])
  listed : ∃ ps main, pages project.routes project = .ok ps ∧
    entryPoint x.config.projectName project.routes = .ok main ∧
    ∃ es, Holds (loc ++ [Text.bytesOf "archive.zip"]) es fs ∧
      es.length = archive.report.archiveEntries ∧
      Lists x.config.level (overlaid (generated main ps) tree) es

/-- A finished archive in its workspace, with all that it was made of. -/
structure Made (x : Exporter) (project : Project) (start before : FileSystem) (a : Address)
    (loc : Location) (archive : ExportedArchive) (fs : FileSystem) : Prop where
  workspace : archive.workspace = ⟨a⟩
  reached : Reached before loc (below a [Text.bytesOf "archive.zip"])
  filled : ∃ tree, Offered start x.skeleton tree ∧
    ∃ ps main, pages project.routes project = .ok ps ∧
      entryPoint x.config.projectName project.routes = .ok main ∧
      ∃ es, Holds (loc ++ [Text.bytesOf "archive.zip"]) es fs ∧
        es.length = archive.report.archiveEntries ∧
        Lists x.config.level (overlaid (generated main ps) tree) es

theorem ends_build (hs : Site before a loc) (hstart : Confined before loc start)
    (hempty : ∀ names ≠ [], inside loc start names = none) (x : Exporter) (project : Project)
    (skipped : List SkippedScreen) :
    Ends start (x.build project skipped ⟨a⟩) (fun _ => True) fun archive fs =>
      Confined before loc fs ∧
        ∃ tree, (Apart start loc x.skeleton → Offered start x.skeleton tree) ∧
          Packed x project before a loc tree archive fs := by
  unfold Exporter.build
  simp only [archive_below hs.settled, project_below hs.settled]
  refine (ends_assemble hs spelt_project.proper spelt_project.ne_nil hstart hempty x.skeleton _ _
    project).bind ?_
  rintro report fs ⟨hi, tree, hoffered, ps, main, hps, hmain, htree⟩
  have hbeside : ∀ more, [Text.bytesOf "project"] ++ more ≠ [Text.bytesOf "archive.zip"] := by
    intro more he
    have hname : Text.bytesOf "project" = Text.bytesOf "archive.zip" := (List.cons.inj he).1
    exact absurd (bytesOf_inj hname) (by decide)
  have hpack := (runs_package_lists hs spelt_archive.ne_nil spelt_archive.proper
    spelt_project.ne_nil spelt_project.proper hbeside x.config.level
    (Deadline.after ⟨x.config.timeout, x.clock⟩ (assemblyUnits project)) _).ends hi htree
  refine (hpack.mono (fun _ _ => trivial) fun _ _ h => h).bind ?_
  rintro count after ⟨hi', es, hholds, hcount, hlists, hreached⟩
  exact ⟨hi', tree, hoffered, rfl, hreached, ps, main, hps, hmain, es, hholds, hcount, hlists⟩

theorem resolve_reached (hs : Site before a loc) {names : Location} {fs : FileSystem} {e : Entry}
    (hn : ∀ n ∈ names, n.isProper = true) (hne : names ≠ [])
    (h : Reached before loc (below a names)) (hi : Confined before loc fs)
    (he : fs.get? (loc ++ names) = some e) :
    resolve fs true (below a names) = .ok ⟨loc ++ names, some e⟩ := by
  obtain ⟨fs', p, hi', hr⟩ := h
  obtain ⟨hz, hnil, hl, _⟩ := resolve_ok_iff.mp hr
  have hshort := hi'.short_below hs hn hr
  refine resolve_ok_iff.mpr ⟨hz, hnil, hl, leads_of_walk ?_⟩
  obtain ⟨left, hmore⟩ := (hi.leads hs).append rfl
  rw [segments_below hn, origin_below hs.settled.ne_nil, hmore true _ (by simpa using hne)]
  refine walk_names hshort hi.made he ?_ true left
  rintro target rfl
  exact hi.plain names target he

theorem runOn_peek (hs : Site before a loc) {archive : ExportedArchive} {es : Archive}
    {fs : FileSystem} (hw : archive.workspace = ⟨a⟩)
    (h : Reached before loc (below a [Text.bytesOf "archive.zip"])) (hi : Confined before loc fs)
    (he : Holds (loc ++ [Text.bytesOf "archive.zip"]) es fs) :
    archive.peek.runOn fs = (.ok (.file (.archive es)), fs) := by
  have hr := resolve_reached hs spelt_archive.proper spelt_archive.ne_nil h hi he
  have hentry := runOn_entryAt_file hr (hs.settled.below spelt_archive.proper).endsInSlash
  unfold ExportedArchive.peek
  rw [hw, archive_below hs.settled]
  unfold FileAction.mapError runOn at *
  simp only [hentry]
  rfl

theorem founded_empty {root : Address} {rooted : FileSystem} {w : Workspace}
    (h : Founded root before rooted w loc start) :
    ∀ names ≠ [], inside loc start names = none := by
  intro names hne
  rw [h.made, inside, get?_put h.admits, if_neg (by simpa using hne)]
  exact get?_below h.site.empty (List.prefix_append loc names)

theorem ends_run_packed (x : Exporter) (request : Request) (before : FileSystem) :
    Ends before (x.run request) (fun _ => True) fun archive opened =>
      ∃ project skipped, Exporter.readScreens x.config request = .ok (project, skipped) ∧
        ∃ rooted w loc start, Founded x.workRoot before rooted w loc start ∧
          Confined rooted loc opened ∧
          ∃ tree, (Apart start loc x.skeleton → Offered start x.skeleton tree) ∧
            Packed x project rooted w.address loc tree archive opened := by
  unfold Exporter.run
  refine .bind (S := fun _ fs => fs = before) (ends_ofExcept trivial fun _ _ => rfl) ?_
  rintro _ fs rfl
  refine .bind (S := fun read fs' => fs' = fs ∧ Exporter.readScreens x.config request = .ok read)
    (ends_ofExcept trivial fun _ h => ⟨rfl, h⟩) ?_
  rintro ⟨project, skipped⟩ _ ⟨rfl, hread⟩
  refine ((ends_create_founded x.draw x.workRoot _).mono (fun _ _ => trivial) fun _ _ h => h).bind ?_
  rintro w start ⟨rooted, loc, hfounded⟩
  refine ends_keepOnSuccess ?_
  refine (ends_build hfounded.site hfounded.confined (founded_empty hfounded) x project skipped).mono
    (fun _ _ => trivial) ?_
  intro archive opened h
  exact ⟨project, skipped, hread, rooted, w, loc, start, hfounded, h⟩

theorem ends_run_made (x : Exporter) (request : Request) (before : FileSystem) :
    Ends before (x.run request) (fun _ => True) fun archive opened =>
      ∃ project skipped, Exporter.readScreens x.config request = .ok (project, skipped) ∧
        ∃ rooted w loc start, Founded x.workRoot before rooted w loc start ∧
          Confined rooted loc opened ∧
          (Apart start loc x.skeleton →
            Made x project start rooted w.address loc archive opened) := by
  refine (ends_run_packed x request before).mono (fun _ h => h) ?_
  rintro archive opened ⟨project, skipped, hread, rooted, w, loc, start, hfounded, hi, tree,
    hoffered, hpacked⟩
  refine ⟨project, skipped, hread, rooted, w, loc, start, hfounded, hi, fun hapart => ?_⟩
  exact ⟨hpacked.workspace, hpacked.reached, tree, hoffered hapart, hpacked.listed⟩

end Screenwright.Proofs.Assembling
