import Screenwright.Proofs.Contents

namespace Screenwright.Proofs.Holdings
open Files FileSystem FileAction Address Screen Flutter Export
open Entries Walks Addresses Running Confinement Building Sources Cleanup
open Trees Listing Skeletons Packing Decoding Assembling Contents

/-- Two addresses that lead to places of which neither lies in the other. -/
def Separate (fs : FileSystem) (a b : Address) : Prop :=
  ∀ p q, resolve fs true a = .ok p → resolve fs true b = .ok q →
    ¬ p.location <+: q.location ∧ ¬ q.location <+: p.location

/-- Directories and files in a directory have names that are text. -/
def TextNames (fs : FileSystem) (a : Address) : Prop :=
  ∀ p names e, resolve fs true a = .ok p → fs.get? (p.location ++ names) = some e →
    (∀ target, e ≠ .link target) → ∃ texts, names = located texts

theorem separate_iff {fs : FileSystem} {a b : Address} :
    (match resolve fs true a, resolve fs true b with
      | .ok p, .ok q => !p.location.isPrefixOf q.location && !q.location.isPrefixOf p.location
      | _, _ => true) = true ↔ Separate fs a b := by
  unfold Separate
  cases resolve fs true a with
  | error e => simp
  | ok p =>
    cases resolve fs true b with
    | error e => simp
    | ok q => simp [← List.isPrefixOf_iff_prefix]

instance (fs : FileSystem) (a b : Address) : Decidable (Separate fs a b) :=
  decidable_of_iff _ separate_iff

theorem located_iff {names : Location} :
    (∃ texts, names = located texts) ↔ ∀ n ∈ names, Text.bytesOf (Text.shown n) = n := by
  constructor
  · rintro ⟨texts, rfl⟩ n hn
    obtain ⟨text, _, rfl⟩ := List.mem_map.mp hn
    rw [shown_bytesOf]
  · intro h
    refine ⟨names.map Text.shown, ?_⟩
    rw [located, List.map_map, Function.comp_def, List.map_congr_left h, List.map_id']

def isTextual (names : Location) : Entry → Bool
  | .link _ => true
  | _ => names.all fun n => Text.bytesOf (Text.shown n) = n

theorem isTextual_iff {names : Location} {e : Entry} :
    isTextual names e = true ↔
      ((∀ target, e ≠ .link target) → ∃ texts, names = located texts) := by
  rw [located_iff]
  cases e <;> simp [isTextual]

theorem textNames_iff {fs : FileSystem} {a : Address} :
    (match resolve fs true a with
      | .ok p => (fs.below p.location).all fun e => isTextual e.1 e.2
      | .error _ => true) = true ↔ TextNames fs a := by
  unfold TextNames
  cases resolve fs true a with
  | error e => simp
  | ok p =>
    rw [List.all_eq_true]
    constructor
    · rintro h _ names e ⟨⟩ he
      by_cases hne : names = []
      · exact fun _ => ⟨[], hne⟩
      · exact isTextual_iff.mp (h (names, e) (mem_below_iff.mpr ⟨hne, he⟩))
    · rintro h ⟨names, e⟩ hmem
      exact isTextual_iff.mpr (h p names e rfl (mem_below_iff.mp hmem).2)

instance (fs : FileSystem) (a : Address) : Decidable (TextNames fs a) :=
  decidable_of_iff _ textNames_iff

/-- A directory is as it was, but for new directories on the way to the root of workspaces. -/
def Kept (root : Address) (before after : FileSystem) (loc : Location) : Prop :=
  ∀ names, after.get? (loc ++ names) = before.get? (loc ++ names) ∨
    before.get? (loc ++ names) = none ∧ after.get? (loc ++ names) = some .directory ∧
      ∃ a ∈ lineage root.written.length root,
        resolve after false a = .ok ⟨loc ++ names, some .directory⟩

/-- The entries of an archive, by the skeleton that its project has been given. -/
def Filled (x : Exporter) (before opened : FileSystem) (main : String) (ps : List Page)
    (es : Archive) : Skeleton → Prop
  | .builtin title => ∃ (manifest options ignored readme : String) (sorted : List Page),
      Flutter.skeleton title = .ok (madeFiles manifest options ignored readme) ∧
      sorted.Perm ps ∧
      sorted.Pairwise (fun p q =>
        Text.bytesOf p.name.fileName < Text.bytesOf q.name.fileName) ∧
      es = madeEntries x.config.level main manifest options ignored readme sorted
  | .directory template => ∃ there,
      resolve opened true template = .ok ⟨there, some .directory⟩ ∧
      Kept x.workRoot before opened there ∧
      Shows x.config.level (overlaid (generated main ps) (copied (inside there opened))) es

/-- What a finished archive holds, and what that was made of. -/
structure Holding (x : Exporter) (request : Request) (before opened : FileSystem)
    (archive : ExportedArchive) (project : Project) (ps : List Page) (main : String)
    (es : Archive) : Prop where
  read : ∃ skipped, Exporter.readScreens x.config request = .ok (project, skipped)
  pages : Flutter.pages project.routes project = .ok ps
  each : ps.length = project.screens.length
  entry : entryPoint x.config.projectName project.routes = .ok main
  peeked : archive.peek.runOn opened = (.ok (.file (.archive es)), opened)
  counted : es.length = archive.report.archiveEntries
  once : (es.map (·.name)).Nodup
  apart : (ps.map Page.path).Nodup
  started : file x.config.level "lib/main.dart" main ∈ es
  own : ∀ p ∈ ps, file x.config.level p.path p.source ∈ es
  filled : Filled x before opened main ps es x.skeleton

variable {root template : Address} {before rooted start opened : FileSystem} {w : Workspace}
variable {loc there : Location} {skeleton : Skeleton}

theorem grows_founded (h : Founded root before rooted w loc start)
    (hi : Confined rooted loc opened) : Grows start opened :=
  grows_confined h.confined (founded_empty h) hi

/-- A workspace lies outside a directory that is apart from the root of workspaces. -/
theorem apart_of_separate (h : Founded root before rooted w loc start)
    (hi : Confined rooted loc opened)
    (hseparate : ∀ template, skeleton = .directory template → Separate opened template root) :
    Apart start loc skeleton := by
  rintro template there rfl hr names hp
  obtain ⟨base, name, hroot, rfl⟩ := h.within
  have htemplate := resolve_grows (grows_founded h hi) hr rfl
  have hbase := resolve_grows (hi.grows h.site) hroot rfl
  obtain ⟨hout, hin⟩ := hseparate template rfl _ _ htemplate hbase
  have hbelow : base <+: there ++ names := (List.prefix_append base [name]).trans hp
  rcases List.prefix_or_prefix_of_prefix hbelow (List.prefix_append there names) with hq | hq
  · exact hin hq
  · exact hout hq

theorem kept_of_founded (h : Founded root before rooted w loc start)
    (hi : Confined rooted loc opened) (hapart : ∀ names, ¬ loc <+: there ++ names) :
    Kept root before opened there := by
  intro names
  rw [hi.outside _ (hapart names)]
  rcases h.only (there ++ names) with hsame | ⟨hnone, hd, a, ha, hr⟩
  · exact .inl hsame
  · exact .inr ⟨hnone, hd, a, ha, resolve_grows (hi.grows h.site) hr rfl⟩

theorem text_copied (htext : TextNames opened template)
    (hr : resolve opened true template = .ok ⟨there, some .directory⟩) {names : Location}
    {e : Entry} (he : copied (inside there opened) names = some e) :
    ∃ texts, names = located texts := by
  unfold copied at he
  split at he
  · next hnil => exact ⟨[], hnil⟩
  · obtain ⟨hin, hkind⟩ := Option.filter_eq_some_iff.mp he
    refine htext _ names e hr hin ?_
    rintro target rfl
    cases hkind

theorem text_provided {files : List SourceFile} {names : Location} {e : Entry}
    (he : provided files names = some e) : ∃ texts, names = located texts := by
  unfold provided at he
  split at he
  · next hnil => exact ⟨[], hnil⟩
  · obtain ⟨file, hfile, _⟩ := Option.map_eq_some_iff.mp he
    have hname : [Text.bytesOf file.path] = names := by simpa using List.find?_some hfile
    exact ⟨[file.path], hname.symm⟩

theorem skeleton_made {title : String} {files : List SourceFile}
    (h : Flutter.skeleton title = .ok files) :
    ∃ manifest options ignored readme, files = madeFiles manifest options ignored readme := by
  have hpaths : files.map SourceFile.path =
      ["pubspec.yaml", "analysis_options.yaml", ".gitignore", "README.md"] := paths_skeleton h
  simp only [List.map_eq_cons_iff, List.map_eq_nil_iff] at hpaths
  obtain ⟨⟨_, manifest⟩, _, rfl, rfl, ⟨_, options⟩, _, rfl, rfl, ⟨_, ignored⟩, _, rfl, rfl,
    ⟨_, readme⟩, _, rfl, rfl, rfl⟩ := hpaths
  exact ⟨manifest, options, ignored, readme, rfl⟩

variable {x : Exporter} {project : Project} {ps : List Page} {main : String} {es : Archive}

/-- Whatever the skeleton, the archive shows it with the generated files on top. -/
theorem shows_offered (h : Founded root before rooted w loc start)
    (hi : Confined rooted loc opened) (hapart : Apart start loc skeleton)
    (htext : ∀ template, skeleton = .directory template → TextNames opened template) {tree : Tree}
    (hoffered : Offered start skeleton tree) {level : Int64}
    (hlists : Lists level (overlaid (generated main ps) tree) es) :
    Shows level (overlaid (generated main ps) tree) es := by
  refine shows_of_lists hlists fun names e he => text_overlaid (fun names e he => ?_) he
  cases skeleton with
  | builtin title =>
    obtain ⟨files, _, rfl⟩ := hoffered
    exact text_provided he
  | directory template =>
    obtain ⟨there, hr, rfl⟩ := hoffered
    have hsource := source_of_apart h.confined (founded_empty h) hr (hapart template there rfl hr)
    rw [← hsource.holds opened hi] at he
    exact text_copied (htext template rfl) (hsource.leads opened hi) he

theorem filled_of_offered (h : Founded x.workRoot before rooted w loc start)
    (hi : Confined rooted loc opened) (hapart : Apart start loc skeleton) {tree : Tree}
    (hoffered : Offered start skeleton tree)
    (hpages : Flutter.pages project.routes project = .ok ps)
    (hshows : Shows x.config.level (overlaid (generated main ps) tree) es) :
    Filled x before opened main ps es skeleton := by
  cases skeleton with
  | builtin title =>
    obtain ⟨files, hfiles, rfl⟩ := hoffered
    obtain ⟨manifest, options, ignored, readme, rfl⟩ := skeleton_made hfiles
    have hordered := byFileName_ordered (fileNames_pages hpages)
    have hperm : (byFileName ps).Perm ps := List.perm_insertionSort _ _
    exact ⟨manifest, options, ignored, readme, byFileName ps, hfiles, hperm, hordered,
      hshows.made (generated_nodup hpages main) hperm hordered⟩
  | directory template =>
    obtain ⟨there, hr, rfl⟩ := hoffered
    have hout := hapart template there rfl hr
    have hsource := source_of_apart h.confined (founded_empty h) hr hout
    rw [← hsource.holds opened hi] at hshows
    exact ⟨there, hsource.leads opened hi, kept_of_founded h hi hout, hshows⟩

theorem paths_nodup (h : Flutter.pages project.routes project = .ok ps) :
    (ps.map Page.path).Nodup := by
  refine List.pairwise_map.mpr ((List.pairwise_map.mp (fileNames_pages h)).imp fun hne he => hne ?_)
  simpa [Page.path] using he

/-- A finished archive holds the skeleton with the generated files on top and nothing else. A
directory that is given as the skeleton must not meet the root of workspaces, as both are when the
archive is finished, and what it holds must have names that are text. -/
theorem archive_holds (x : Exporter) (request : Request) (before opened : FileSystem)
    (archive : ExportedArchive) (hrun : (x.run request).runOn before = (.ok archive, opened))
    (hseparate : ∀ template, x.skeleton = .directory template →
      Separate opened template x.workRoot)
    (htext : ∀ template, x.skeleton = .directory template → TextNames opened template) :
    ∃ project ps main es, Holding x request before opened archive project ps main es := by
  have hends := ends_run_made x request before
  rw [Ends, hrun] at hends
  obtain ⟨project, skipped, hread, rooted, w, loc, start, hfounded, hi, hmade⟩ := hends
  have hapart := apart_of_separate hfounded hi hseparate
  obtain ⟨hworkspace, hreached, tree, hoffered, ps, main, hpages, hmain, es, hholds, hcount,
    hlists⟩ := hmade hapart
  have hshows := shows_offered hfounded hi hapart htext hoffered hlists
  have hnodup := generated_nodup hpages main
  refine ⟨project, ps, main, es, ?_⟩
  constructor
  case read => exact ⟨skipped, hread⟩
  case pages => exact hpages
  case each => exact (pages_spec hpages).1
  case entry => exact hmain
  case peeked => exact runOn_peek hfounded.site hworkspace hreached hi hholds
  case counted => exact hcount
  case once => exact hlists.nodup
  case apart => exact paths_nodup hpages
  case started => exact hshows.own hnodup (by simp) (mem_generated.mpr (.inl rfl))
  case own =>
    intro p hp
    exact hshows.own hnodup (by simp) (mem_generated.mpr (.inr ⟨p, hp, rfl⟩))
  case filled => exact filled_of_offered hfounded hi hapart hoffered hpages hshows

/-- A directory with a file and a link, and with an entry point that does not stay. -/
def templated : FileSystem :=
  [(["template"], .directory), (["template", "assets"], .directory),
    (["template", "assets", "logo.txt"], .file (.ofText "logo")),
    (["template", "lib"], .directory),
    (["template", "lib", "main.dart"], .file (.ofText "// to be replaced")),
    (["template", "lib", "notes"], .link (Text.bytesOf "/work"))].foldl
    (fun fs (e : List String × Entry) => fs.put (located e.1) e.2) ∅

def given : Address := ⟨[], Text.bytesOf "/template"⟩

def exporter : Exporter where
  config := { workRoot := some "/work" }
  skeleton := .directory given
  base := []
  temporary := ⟨[], Text.bytesOf "/tmp"⟩

def request : Request := .ofList [
  ("Home", "\x7b\"ROOT\":\x7b\"type\":\"Text\"\x7d\x7d"), ("home", "\x7b\x7d")]

def entryNames (archive : ExportedArchive) (opened : FileSystem) : List String :=
  match (archive.peek.runOn opened).1 with
  | .ok (.file (.archive es)) => es.map Archive.Entry.name
  | _ => []

theorem archive_holds_template :
    ∃ archive opened, (exporter.run request).runOn templated = (.ok archive, opened) ∧
      entryNames archive opened = ["assets/", "assets/logo.txt", "lib/", "lib/main.dart",
        "lib/screens/", "lib/screens/screen_home.dart", "lib/screens/screen_home2.dart"] ∧
      ∃ project ps main es,
        Holding exporter request templated opened archive project ps main es := by
  have hchecked : (match (exporter.run request).runOn templated with
      | (.ok archive, opened) =>
        decide (Separate opened given exporter.workRoot) && decide (TextNames opened given) &&
          decide (entryNames archive opened = ["assets/", "assets/logo.txt", "lib/",
            "lib/main.dart", "lib/screens/", "lib/screens/screen_home.dart",
            "lib/screens/screen_home2.dart"])
      | (.error _, _) => false) = true := by decide +kernel
  cases hrun : (exporter.run request).runOn templated with
  | mk r opened =>
    rw [hrun] at hchecked
    cases r with
    | error e => cases hchecked
    | ok archive =>
      simp only [Bool.and_eq_true, decide_eq_true_eq] at hchecked
      obtain ⟨⟨hseparate, htext⟩, hnames⟩ := hchecked
      refine ⟨archive, opened, rfl, hnames,
        archive_holds exporter request templated opened archive hrun ?_ ?_⟩
      · rintro _ ⟨⟩
        exact hseparate
      · rintro _ ⟨⟩
        exact htext

end Screenwright.Proofs.Holdings
