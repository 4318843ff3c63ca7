import Screenwright.Proofs.Isolation
import Screenwright.Proofs.Previews
import Screenwright.Proofs.Programs

namespace Screenwright.Proofs.Reports
open Files FileAction Design Screen Flutter Export Lexing
open Running Sources Cleanup Identifiers Isolation Presses Navigation Programs Packing Assembling
open Contents Outcomes

def entryOf (p : Page) : ScreenEntry := ⟨p.label, p.name⟩

def renamedOf (s : ScreenEntry) : RenamedScreen :=
  ⟨s.label, (Name.ofLabel s.label).fileName, s.name.fileName⟩

section Filling

variable {deadline : Deadline} {routes : Routes} {dest : Address} {fs : FileSystem}

theorem writePage_ok {screen : Screen} {index : Nat} {entry : ScreenEntry}
    (h : ((writePage deadline routes dest screen index).runOn fs).1 = .ok entry) :
    ∃ p, page routes screen (nameFor routes screen index) = .ok p ∧ entry = entryOf p := by
  unfold writePage at h
  obtain ⟨_, _, _, h⟩ := bind_ok h
  obtain ⟨p, _, hp, h⟩ := bind_ok h
  obtain ⟨_, _, _, h⟩ := bind_ok h
  cases h
  have hmade : (page routes screen (nameFor routes screen index)).mapError ExportError.source =
      .ok p := congrArg Prod.fst hp
  exact ⟨p, mapError_ok_iff.mp hmade, rfl⟩

theorem writePages_ok {screens : List (Screen × Nat)} {entries : List ScreenEntry}
    (h : ((screens.mapM fun (screen, index) =>
      writePage deadline routes dest screen index).runOn fs).1 = .ok entries) :
    ∃ ps, (screens.mapM fun (screen, index) =>
      page routes screen (nameFor routes screen index)) = .ok ps ∧
        entries = ps.map entryOf := by
  induction screens generalizing entries fs with
  | nil =>
    cases h
    exact ⟨[], rfl, rfl⟩
  | cons s screens ih =>
    rw [List.mapM_cons] at h
    obtain ⟨entry, _, hentry, h⟩ := bind_ok h
    obtain ⟨rest, _, hrest, h⟩ := bind_ok h
    cases h
    obtain ⟨p, hp, rfl⟩ := writePage_ok (congrArg Prod.fst hentry)
    obtain ⟨ps, hps, rfl⟩ := ih (congrArg Prod.fst hrest)
    refine ⟨p :: ps, ?_, rfl⟩
    rw [List.mapM_cons]
    dsimp only
    rw [hp, hps]
    rfl

theorem assemble_ok {title : String} {project : Project} {skeleton : Skeleton} {report : Report}
    (h : ((assemble title deadline project routes skeleton dest).runOn fs).1 = .ok report) :
    ∃ ps, pages routes project = .ok ps ∧ report =
      ⟨ps.map entryOf, (routes.home?.map Name.className).getD "", renamedScreens routes, [], 0⟩ := by
  unfold assemble at h
  obtain ⟨_, _, _, h⟩ := bind_ok h
  obtain ⟨_, _, _, h⟩ := bind_ok h
  obtain ⟨entries, _, hentries, h⟩ := bind_ok h
  obtain ⟨_, _, _, h⟩ := bind_ok h
  obtain ⟨_, _, _, h⟩ := bind_ok h
  obtain ⟨_, _, _, h⟩ := bind_ok h
  cases h
  obtain ⟨ps, hps, rfl⟩ := writePages_ok (congrArg Prod.fst hentries)
  exact ⟨ps, hps, rfl⟩

end Filling

theorem ok_of_keepOnSuccess {ε α : Type} {w : Workspace} {act : FileAction ε α} {fs : FileSystem}
    {a : α} (h : ((w.keepOnSuccess act).runOn fs).1 = .ok a) : (act.runOn fs).1 = .ok a := by
  rw [runOn_keepOnSuccess] at h
  cases hr : act.runOn fs with
  | mk r after =>
    rw [hr] at h
    cases r with
    | ok b => exact h
    | error e => cases h

/-- What a finished build reports, but for the number of entries, which is counted. -/
theorem build_ok {x : Exporter} {project : Project} {skipped : List SkippedScreen} {w : Workspace}
    {fs : FileSystem} {archive : ExportedArchive}
    (h : ((x.build project skipped w).runOn fs).1 = .ok archive) :
    ∃ ps, pages project.routes project = .ok ps ∧ archive.report =
      ⟨ps.map entryOf, (project.routes.home?.map Name.className).getD "",
        renamedScreens project.routes, skipped, archive.report.archiveEntries⟩ := by
  unfold Exporter.build at h
  obtain ⟨report, _, hreport, h⟩ := bind_ok h
  obtain ⟨count, _, _, h⟩ := bind_ok h
  cases h
  obtain ⟨ps, hps, rfl⟩ := assemble_ok (congrArg Prod.fst hreport)
  exact ⟨ps, hps, rfl⟩

theorem run_ok {x : Exporter} {request : Request} {before : FileSystem} {archive : ExportedArchive}
    (h : ((x.run request).runOn before).1 = .ok archive) :
    ∃ project skipped ps, Exporter.readScreens x.config request = .ok (project, skipped) ∧
      pages project.routes project = .ok ps ∧ archive.report =
        ⟨ps.map entryOf, (project.routes.home?.map Name.className).getD "",
          renamedScreens project.routes, skipped, archive.report.archiveEntries⟩ := by
  unfold Exporter.run at h
  obtain ⟨_, _, _, h⟩ := bind_ok h
  obtain ⟨⟨project, skipped⟩, _, hread, h⟩ := bind_ok h
  obtain ⟨w, _, _, h⟩ := bind_ok h
  obtain ⟨ps, hps, hreport⟩ := build_ok (ok_of_keepOnSuccess h)
  exact ⟨project, skipped, ps, congrArg Prod.fst hread, hps, hreport⟩

theorem labels_readable (sources : List Source) :
    (Project.readable sources).map Screen.label = (sources.filter isReadable).map Prod.fst :=
  labels_parsed (mapM_ok_iff.mp (mapM_readable sources))

theorem labels_skipped (sources : List Source) :
    (sources.filterMap skippedFor).map SkippedScreen.label =
      (sources.filter fun s => !isReadable s).map Prod.fst := by
  induction sources with
  | nil => rfl
  | cons source rest ih =>
    unfold isReadable at ih ⊢
    cases hp : DesignTree.parse source.2 with
    | ok tree => simp [skippedFor, hp, ih, Except.isOk, Except.toBool]
    | error cause => simp [skippedFor, hp, ih, Except.isOk, Except.toBool]

/-- Whatever the isolation is, the screens are those that can be read, of which there is one at
least, and what is left out is what cannot be read. -/
theorem readScreens_ok {config : Config} {request : Request} {project : Project}
    {skipped : List SkippedScreen}
    (h : Exporter.readScreens config request = .ok (project, skipped)) :
    project.screens = Project.readable request.entries ∧ project.screens ≠ [] ∧
      skipped = skippedOf request := by
  unfold Exporter.readScreens at h
  split at h
  · cases hp : Project.parseAll request.entries with
    | error e =>
      rw [hp] at h
      cases h
    | ok parsed =>
      rw [hp] at h
      cases h
      obtain ⟨hscreens, hne⟩ := screens_parseAll hp
      obtain ⟨hread, hunread⟩ := Previews.readable_of_parsed hscreens
      refine ⟨hread.symm, hne, ?_⟩
      rw [skippedOf, ← map_unreadable, hunread, List.map_nil]
  · cases ho : Project.ofScreens (Project.readable request.entries) with
    | error e =>
      simp only [Project.parseLenient, ho] at h
      cases h
    | ok parsed =>
      simp only [Project.parseLenient, ho] at h
      cases h
      unfold Project.ofScreens at ho
      split at ho
      · cases ho
      · next hne =>
        cases ho
        exact ⟨rfl, by simpa using hne, map_unreadable request.entries⟩

/-- A screen has the name of its label as soon as its file has. -/
theorem name_of_fileName {labels : List String} {e : Route}
    (he : e ∈ (Routes.resolve labels).entries)
    (h : e.name.fileName = (Name.ofLabel e.label).fileName) : e.name = .ofLabel e.label := by
  obtain ⟨i, hi⟩ := List.getElem?_of_mem he
  rcases ((RouteNames.wellNamed_resolve labels).named i e hi).ofLabel_or_withSuffix with hn | ⟨k, hn⟩
  · exact hn
  · rw [hn] at h
    exact absurd h (RouteNames.withSuffix_fileName_ne _ k)

theorem renamed_pages {project : Project} {ps : List Page}
    (h : project.routes.entries = ps.map fun p => ⟨p.label, p.name⟩) :
    renamedScreens project.routes = ((ps.map entryOf).filter fun s =>
      s.name.fileName ≠ (Name.ofLabel s.label).fileName).map renamedOf := by
  have hname (p : Page) (hp : p ∈ ps) :
      decide (p.name ≠ .ofLabel p.label) =
        decide (p.name.fileName ≠ (Name.ofLabel p.label).fileName) := by
    have he : (⟨p.label, p.name⟩ : Route) ∈ (Routes.resolve project.labels).entries := by
      rw [← Project.routes, h]
      exact List.mem_map_of_mem hp
    have hiff : p.name = .ofLabel p.label ↔
        p.name.fileName = (Name.ofLabel p.label).fileName := by
      constructor
      · intro heq
        exact congrArg Name.fileName heq
      · intro hfile
        exact name_of_fileName he hfile
    simp only [ne_eq, hiff]
  have hfilter := List.filter_congr hname
  unfold renamedScreens
  rw [RouteNames.renames_eq_filter, h]
  simp only [List.filter_map, List.map_map, Function.comp_def, entryOf]
  rw [hfilter]
  rfl

/-- An archive that is described by a report, which accounts for every screen of a request. -/
structure Describes (level : Int64) (request : Request) (report : Report) (es : Archive) :
    Prop where
  /-- The screens of the archive are those whose documents can be read, in order. -/
  screens : report.screens.map ScreenEntry.label =
    (request.entries.filter isReadable).map Prod.fst
  /-- The others are left out, in order. -/
  skipped : report.skipped.map SkippedScreen.label =
    (request.entries.filter fun s => !isReadable s).map Prod.fst
  /-- Every label is reported once. -/
  once : (report.screens.map ScreenEntry.label ++ report.skipped.map SkippedScreen.label).Perm
    request.keys
  /-- The file of a screen is in the archive, and declares the class of the screen alone. -/
  pages : ∀ s ∈ report.screens, ∃ source ts,
    es.filter (·.name = "lib/screens/" ++ s.name.fileName) =
        [file level ("lib/screens/" ++ s.name.fileName) source] ∧
      lex source = some ts ∧ classes ts = [some s.name.className]
  /-- The entry point of the archive leads from the path of a screen to its class, and its home is
  the one reported. -/
  entry : ∃ main ts map,
    es.filter (·.name = "lib/main.dart") = [file level "lib/main.dart" main] ∧
      lex main = some ts ∧ routesOf ts = some map ∧
      (∀ s ∈ report.screens,
        map.filter (·.1 = s.name.routePath) = [(s.name.routePath, s.name.className)]) ∧
      homeClasses ts = [some report.homeClass]
  renamed : report.renamed = (report.screens.filter fun s =>
    s.name.fileName ≠ (Name.ofLabel s.label).fileName).map renamedOf
  counted : report.archiveEntries = es.length

/-- The report of a finished export describes its archive exactly. -/
theorem report_describes (x : Exporter) (request : Request) (before opened : FileSystem)
    (archive : ExportedArchive) (hrun : (x.run request).runOn before = (.ok archive, opened)) :
    ∃ es, archive.peek.runOn opened = (.ok (.file (.archive es)), opened) ∧
      Describes x.config.level request archive.report es := by
  obtain ⟨project, skipped, ps, hread, hps, hreport⟩ := run_ok (congrArg Prod.fst hrun)
  have hends := ends_run_packed x request before
  rw [Ends, hrun] at hends
  obtain ⟨project', skipped', hread', rooted, w, loc, start, hfounded, hi, tree, _, hworkspace,
    hreached, ps', main, hps', hmain, es, hholds, hcount, hlists⟩ := hends
  cases hread.symm.trans hread'
  cases hps.symm.trans hps'
  obtain ⟨hscreens, hne, rfl⟩ := readScreens_ok hread
  obtain ⟨hlen, hpages⟩ := pages_spec hps
  have hentries := entries_pages hlen hpages
  have hnodup := generated_nodup hps main
  have hlabels : (ps.map entryOf).map ScreenEntry.label =
      (request.entries.filter isReadable).map Prod.fst := by
    have hproject := labels_pages hentries
    rw [Project.labels, hscreens, labels_readable] at hproject
    rw [List.map_map, ← hproject]
    rfl
  have hskipped := labels_skipped request.entries
  refine ⟨es, runOn_peek hfounded.site hworkspace hreached hi hholds, ?_⟩
  rw [hreport]
  constructor
  case screens => exact hlabels
  case skipped => exact hskipped
  case once =>
    rw [hlabels, skippedOf, hskipped, ← List.map_append]
    exact (List.filter_append_perm isReadable request.entries).map Prod.fst
  case pages =>
    intro s hs
    obtain ⟨p, hp, rfl⟩ := List.mem_map.mp hs
    obtain ⟨i, hip, rfl⟩ := List.getElem_of_mem hp
    have his : i < project.screens.length := hlen ▸ hip
    obtain ⟨ts, hts, hclasses⟩ := declares_page
      (hpages i _ _ (List.getElem?_eq_getElem his) (List.getElem?_eq_getElem hip))
    refine ⟨ps[i].source, ts, ?_, hts, hclasses⟩
    exact Previews.own_of_lists hlists hnodup (by simp) (mem_generated.mpr (.inr ⟨ps[i], hp, rfl⟩))
  case entry =>
    obtain ⟨home, more, hfirst⟩ : ∃ home more, project.routes.entries = home :: more := by
      refine List.exists_cons_of_ne_nil fun hnil => hne ?_
      rw [hentries, List.map_eq_nil_iff] at hnil
      rw [hnil] at hlen
      exact List.length_eq_zero_iff.mp hlen.symm
    obtain ⟨made, hmade, hlex⟩ :=
      entryPoint_ok x.config.projectName hfirst (clean_resolve project.labels)
    cases hmain.symm.trans hmade
    refine ⟨main, _, _, ?_, hlex, routesOf_main _ _ _, ?_, ?_⟩
    · exact Previews.own_of_lists hlists hnodup (by simp) (mem_generated.mpr (.inl rfl))
    · intro s hs
      obtain ⟨p, hp, rfl⟩ := List.mem_map.mp hs
      have he : (⟨p.label, p.name⟩ : Route) ∈ project.routes.entries := by
        rw [hentries]
        exact List.mem_map_of_mem hp
      have hroute := filter_routePath he
      rw [List.map_map]
      exact hroute
    · have hhome : (project.routes.home?.map Name.className).getD "" = home.name.className := by
        simp [Routes.home?, Routes.nameAt?, hfirst]
      rw [homeClasses_main, hhome]
  case renamed => exact renamed_pages hentries
  case counted => exact hcount.symm

def exporter : Exporter := under .skipInvalid Holdings.exporter

theorem report_describes_mixed :
    ∃ archive opened,
      (exporter.run mixed).runOn Holdings.templated = (.ok archive, opened) ∧
      archive.report.screens.map (fun s => (s.label, s.name.fileName)) =
        [("Home", "screen_home.dart"), ("home", "screen_home2.dart")] ∧
      archive.report.skipped.map SkippedScreen.label = ["Broken", "Text"] ∧
      archive.report.archiveEntries = 7 ∧
      ∃ es, archive.peek.runOn opened = (.ok (.file (.archive es)), opened) ∧
        Describes exporter.config.level mixed archive.report es := by
  have hchecked : (match (exporter.run mixed).runOn Holdings.templated with
      | (.ok archive, _) =>
        decide (archive.report.screens.map (fun s => (s.label, s.name.fileName)) =
            [("Home", "screen_home.dart"), ("home", "screen_home2.dart")]) &&
          decide (archive.report.skipped.map SkippedScreen.label = ["Broken", "Text"]) &&
          decide (archive.report.archiveEntries = 7)
      | (.error _, _) => false) = true := by decide +kernel
  cases hrun : (exporter.run mixed).runOn Holdings.templated with
  | mk r opened =>
    rw [hrun] at hchecked
    cases r with
    | error e => cases hchecked
    | ok archive =>
      simp only [Bool.and_eq_true, decide_eq_true_eq] at hchecked
      obtain ⟨⟨hscreens, hskipped⟩, hentries⟩ := hchecked
      exact ⟨archive, opened, rfl, hscreens, hskipped, hentries,
        report_describes exporter mixed Holdings.templated opened archive hrun⟩

end Screenwright.Proofs.Reports
