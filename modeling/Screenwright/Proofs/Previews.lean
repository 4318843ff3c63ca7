import Screenwright.CommandLine.Run
import Screenwright.Proofs.Holdings
import Screenwright.Proofs.Navigation

namespace Screenwright.Proofs.Previews
open Files FileAction Screen Flutter Export CommandLine
open Running Confinement Building Sources Cleanup Trees Packing Assembling Contents

/-- What a preview prints for a request, however it reads the request. -/
structure Prints (request : Request) (o : PreviewOptions) (text : String) : Prop where
  source : preview request o = .ok text
  run : ∀ (s : Surroundings) (before after : FileSystem),
    (readRequest s o.input).runOn before = (.ok request, after) →
    (runCommand s (.preview o)).runOn before = (.ok ⟨0, .ofText text, ""⟩, after)

/-- Previews of a request, an archive that is made of it and the sources of its project. -/
structure Agreed (x : Exporter) (request : Request) (project : Project) (ps : List Page)
    (main : String) (es : Archive) : Prop where
  pages : Flutter.pages project.routes project = .ok ps
  labels : ps.map Page.label = request.keys
  entry : entryPoint x.config.projectName project.routes = .ok main
  /-- Among the entries of the archive, a page's path has the page's source only. -/
  packed : ∀ p ∈ ps, es.filter (·.name = p.path) = [file x.config.level p.path p.source]
  packedMain : es.filter (·.name = entryPath) = [file x.config.level entryPath main]
  shown : ∀ p ∈ ps, ∀ o : PreviewOptions, o.main = false → o.screen = some p.label →
    Prints request o p.source
  /-- Without a label, it is the first page that is shown. -/
  shownFirst : ∃ p, ps.head? = some p ∧
    ∀ o : PreviewOptions, o.main = false → o.screen = none → Prints request o p.source
  shownMain : ∀ o : PreviewOptions, o.main = true → o.projectName = x.config.projectName →
    Prints request o main

theorem prints_of_preview {request : Request} {o : PreviewOptions} {text : String}
    (h : preview request o = .ok text) : Prints request o text := by
  refine ⟨h, fun s before after hread => ?_⟩
  unfold runCommand runPreview
  rw [runOn_bind, hread]
  dsimp only
  rw [h]
  rfl

variable {request : Request} {project : Project} {ps : List Page} {o : PreviewOptions}

theorem preview_at (hparse : Project.parseAll request.entries = .ok project)
    (hmain : o.main = false) {i : Nat} {screen : Screen} {p : Page}
    (hs : project.screens[i]? = some screen) (hp : PageOf project i screen p)
    (hshown : match o.screen with
      | some label => project.screens.findIdx? (·.label = label) = some i
      | none => i = 0) : preview request o = .ok p.source := by
  have hname : project.routes.nameAt? i = some p.name := by
    rw [Routes.nameAt?, hp.named, Option.map_some]
  have hpage := hp.made
  unfold preview
  rw [hparse]
  simp only [Except.mapError, bind, Except.bind, hmain, Bool.false_eq_true, if_false]
  cases hlabel : o.screen with
  | none =>
    rw [hlabel] at hshown
    subst hshown
    simp only [hs, hname, hpage]
    rfl
  | some label =>
    rw [hlabel] at hshown
    simp only [hshown, hs, hname, hpage]
    rfl

theorem preview_main {title main : String}
    (hparse : Project.parseAll request.entries = .ok project) (hmain : o.main = true)
    (htitle : o.projectName = title) (hentry : entryPoint title project.routes = .ok main) :
    preview request o = .ok main := by
  unfold preview
  rw [hparse]
  simp only [Except.mapError, bind, Except.bind, hmain, if_true, htitle, hentry]

theorem findIdx?_label {screens : List Screen} (h : (screens.map Screen.label).Nodup) {i : Nat}
    {screen : Screen} (hs : screens[i]? = some screen) :
    screens.findIdx? (·.label = screen.label) = some i := by
  obtain ⟨hi, rfl⟩ := List.getElem?_eq_some_iff.mp hs
  refine List.findIdx?_eq_some_iff_getElem.mpr ⟨hi, by simp, fun j hj => ?_⟩
  have hne := List.pairwise_iff_getElem.mp h j i (by simp; omega) (by simpa using hi) hj
  simpa using hne

theorem readable_of_parsed {sources : List Source} {screens : List Screen}
    (h : List.Forall₂ (fun source screen => Screen.parse source = .ok screen) sources screens) :
    Project.readable sources = screens ∧ Project.unreadable sources = [] := by
  induction h with
  | nil => exact ⟨rfl, rfl⟩
  | @cons source screen sources screens hs _ ih =>
    obtain ⟨hread, hunread⟩ := ih
    refine ⟨?_, ?_⟩
    · rw [← hread]
      simp [Project.readable, hs, Except.toOption]
    · rw [← hunread]
      simp [Project.unreadable, hs]

/-- When every document can be read, nothing is left out, whatever the isolation is. -/
theorem readScreens_of_parseAll (config : Config)
    (h : Project.parseAll request.entries = .ok project) :
    Exporter.readScreens config request = .ok (project, []) := by
  unfold Exporter.readScreens
  cases config.isolation with
  | abortAll =>
    rw [h]
    rfl
  | skipInvalid =>
    obtain ⟨hscreens, hne⟩ := Navigation.screens_parseAll h
    obtain ⟨hread, hunread⟩ := readable_of_parsed hscreens
    have hproject : Project.ofScreens project.screens = .ok project := by
      rw [Project.ofScreens, if_neg (by simpa using hne)]
    simp only [Project.parseLenient, hread, hunread, hproject]
    rfl

theorem own_of_lists {level : Int64} {tree : Tree} {main : String} {es : Archive}
    (h : Lists level (overlaid (generated main ps) tree) es)
    (hnodup : ((generated main ps).map Prod.fst).Nodup) {texts : List String} {text : String}
    (hne : texts ≠ []) (hf : (located texts, text) ∈ generated main ps) :
    es.filter (·.name = "/".intercalate texts) = [file level ("/".intercalate texts) text] := by
  obtain ⟨⟨items, rfl, _, hmem⟩, hnames⟩ := h
  refine Keyed.filter_key (a := file level ("/".intercalate texts) text) hnames ?_
  refine List.mem_map.mpr ⟨(located texts, .file (.ofText text)), (hmem _ _).mpr ⟨?_, ?_⟩, ?_⟩
  · simpa [located] using hne
  · exact overlaid_file hnodup hf
  · exact entryOf_located texts (.file (.ofText text))

/-- When every document of a request can be read and the request is exported, previews show what
the archive holds, which is what the project's sources are. -/
theorem sources_agree (x : Exporter) (request : Request) (project : Project)
    (before opened : FileSystem) (archive : ExportedArchive)
    (hparse : Project.parseAll request.entries = .ok project)
    (hrun : (x.run request).runOn before = (.ok archive, opened)) :
    ∃ ps main es, archive.peek.runOn opened = (.ok (.file (.archive es)), opened) ∧
      Agreed x request project ps main es := by
  have hends := ends_run_packed x request before
  rw [Ends, hrun] at hends
  obtain ⟨project', skipped, hread, rooted, w, loc, start, hfounded, hi, tree, _, hworkspace,
    hreached, ps, main, hps, hmain, es, hholds, _, hlists⟩ := hends
  obtain ⟨rfl, rfl⟩ : project = project' ∧ [] = skipped := by
    simpa [readScreens_of_parseAll x.config hparse] using hread
  obtain ⟨hscreens, hne⟩ := Navigation.screens_parseAll hparse
  have hlabels : project.screens.map Screen.label = request.keys :=
    Navigation.labels_parsed hscreens
  have hdistinct : (project.screens.map Screen.label).Nodup := hlabels ▸ request.nodup
  obtain ⟨hlen, hpages⟩ := pages_spec hps
  have hnodup := generated_nodup hps main
  have hpage {i : Nat} (hi : i < ps.length) : ∃ screen, project.screens[i]? = some screen ∧
      PageOf project i screen ps[i] := by
    have hs := List.getElem?_eq_getElem (hlen ▸ hi)
    exact ⟨_, hs, hpages i _ _ hs (List.getElem?_eq_getElem hi)⟩
  refine ⟨ps, main, es, runOn_peek hfounded.site hworkspace hreached hi hholds, ?_⟩
  constructor
  case pages => exact hps
  case labels => exact (labels_pages (entries_pages hlen hpages)).trans hlabels
  case entry => exact hmain
  case packed =>
    intro p hp
    exact own_of_lists hlists hnodup (by simp) (mem_generated.mpr (.inr ⟨p, hp, rfl⟩))
  case packedMain => exact own_of_lists hlists hnodup (by simp) (mem_generated.mpr (.inl rfl))
  case shown =>
    intro p hp o hoff hlabel
    obtain ⟨i, hi, rfl⟩ := List.getElem_of_mem hp
    obtain ⟨screen, hs, hof⟩ := hpage hi
    refine prints_of_preview (preview_at hparse hoff hs hof ?_)
    rw [hlabel, hof.label]
    exact findIdx?_label hdistinct hs
  case shownFirst =>
    have hpos : 0 < ps.length := hlen ▸ List.length_pos_iff.mpr hne
    obtain ⟨screen, hs, hof⟩ := hpage hpos
    refine ⟨ps[0], List.head?_eq_getElem?.trans (List.getElem?_eq_getElem hpos), ?_⟩
    intro o hoff hlabel
    refine prints_of_preview (preview_at hparse hoff hs hof ?_)
    rw [hlabel]
  case shownMain =>
    intro o hon htitle
    exact prints_of_preview (preview_main hparse hon htitle hmain)

/-- A directory with sources of its own, under paths that are generated. -/
def templated : FileSystem :=
  [(["template"], .directory), (["template", "lib"], .directory),
    (["template", "lib", "main.dart"], .file (.ofText "// to be replaced")),
    (["template", "lib", "screens"], .directory),
    (["template", "lib", "screens", "screen_home.dart"], .file (.ofText "// to be replaced")),
    (["template", "lib", "screens", "screen_other.dart"], .file (.ofText "// to stay"))].foldl
    (fun fs (e : List String × Entry) => fs.put (located e.1) e.2) ∅

theorem sources_agree_template :
    ∃ project archive opened,
      Project.parseAll Holdings.request.entries = .ok project ∧
      (Holdings.exporter.run Holdings.request).runOn templated = (.ok archive, opened) ∧
      Holdings.entryNames archive opened = ["lib/", "lib/main.dart", "lib/screens/",
        "lib/screens/screen_home.dart", "lib/screens/screen_home2.dart",
        "lib/screens/screen_other.dart"] ∧
      ∃ ps main es, archive.peek.runOn opened = (.ok (.file (.archive es)), opened) ∧
        Agreed Holdings.exporter Holdings.request project ps main es := by
  have hchecked : (match (Holdings.exporter.run Holdings.request).runOn templated with
      | (.ok archive, opened) =>
        decide (Holdings.entryNames archive opened = ["lib/", "lib/main.dart", "lib/screens/",
          "lib/screens/screen_home.dart", "lib/screens/screen_home2.dart",
          "lib/screens/screen_other.dart"])
      | (.error _, _) => false) = true := by decide +kernel
  have hparsed : (Project.parseAll Holdings.request.entries).isOk = true := by decide +kernel
  cases hproject : Project.parseAll Holdings.request.entries with
  | error e =>
    rw [hproject] at hparsed
    cases hparsed
  | ok project =>
    cases hrun : (Holdings.exporter.run Holdings.request).runOn templated with
    | mk r opened =>
      rw [hrun] at hchecked
      cases r with
      | error e => cases hchecked
      | ok archive =>
        exact ⟨project, archive, opened, rfl, rfl, of_decide_eq_true hchecked,
          sources_agree _ _ project templated opened archive hproject hrun⟩

end Screenwright.Proofs.Previews
