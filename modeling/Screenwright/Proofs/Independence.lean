import Screenwright.Proofs.Holdings
import Screenwright.Proofs.Parallels
import Screenwright.Proofs.Reports

namespace Screenwright.Proofs.Independence
open Files FileSystem FileAction Address Screen Flutter Export
open Addresses Running Confinement Building Cleanup
open Trees Listing Skeletons Packing Assembling Outcomes Lockstep SideBySide Parallels

variable {before before' start start' : FileSystem} {a a' : Address} {loc loc' there : Location}

/-- Exporters that differ only in where they work, in what they call the archive and in how they
keep its files, neither of them with a time limit. -/
structure Variants (x x' : Exporter) : Prop where
  skeleton : x'.skeleton = x.skeleton
  title : x'.config.projectName = x.config.projectName
  isolation : x'.config.isolation = x.config.isolation
  untimed : x.config.timeout = none
  untimed' : x'.config.timeout = none
  valid : x.config.validate = .ok ()
  valid' : x'.config.validate = .ok ()

theorem isLevel_of_valid {config : Config} (h : config.validate = .ok ()) :
    isLevel config.level = true := by
  unfold Config.validate at h
  split at h
  · cases h
  · next hl =>
    unfold isLevel
    simp only [Bool.and_eq_true, decide_eq_true_eq]
    omega

theorem endAlike_build (hs : Site before a loc) (hs' : Site before' a' loc')
    {project : Project} (hroom : Ample a project) (hroom' : Ample a' project) {x x' : Exporter}
    (hv : Variants x x') (skipped skipped' : List SkippedScreen)
    (h : EndAlike (Abreast before loc before' loc') Any Any
      (x.skeleton.materialize (below a (located ["project"])))
      (x.skeleton.materialize (below a' (located ["project"]))) start start') :
    EndAlike (Abreast before loc before' loc') Any Any (x.build project skipped ⟨a⟩)
      (x'.build project skipped' ⟨a'⟩) start start' := by
  unfold Exporter.build
  simp only [archive_below hs.settled, project_below hs.settled, archive_below hs'.settled,
    project_below hs'.settled, hv.skeleton, hv.title]
  have hd : (⟨x.config.timeout, x.clock⟩ : Deadline).limit = none := hv.untimed
  have hd' : (⟨x'.config.timeout, x'.clock⟩ : Deadline).limit = none := hv.untimed'
  have hassembled := endAlike_assemble hs hs' hroom hroom' hd hd' x.config.projectName h
  refine hassembled.bind fun _ _ _ => ?_
  refine (inStep_package hs hs' hroom hroom' (isLevel_of_valid hv.valid)
    (isLevel_of_valid hv.valid') hv.untimed hv.untimed').bind fun _ _ _ => .pure trivial

/-- A workspace that has been made in its root, with room for a whole export: on the disk, and in
the addresses of all files, which the system does not take at any length. -/
structure Writable (x : Exporter) (request : Request) (before : FileSystem) (w : Workspace)
    (start : FileSystem) : Prop where
  made : (Workspace.create x.draw x.workRoot).runOn before = (.ok w, start)
  /-- No part of the export is more than the disk takes. -/
  room : ∀ loc names e, resolve start false w.address = .ok ⟨loc, some .directory⟩ →
    start.lacksRoom (loc ++ names) e = false
  /-- Nothing that the skeleton puts in gets an address that is too long. -/
  fits : ∀ tree names e, Offered start x.skeleton tree → tree names = some e → Fits w.project names
  /-- Nothing that is generated does. -/
  ample : ∀ project skipped, Exporter.readScreens x.config request = .ok (project, skipped) →
    Ample w.address project

/-- A directory that is given as the skeleton lies apart from the root of workspaces, and making a
workspace there leaves it as it is. -/
structure Undisturbed (x : Exporter) (before start : FileSystem) : Prop where
  apart : ∀ template, x.skeleton = .directory template → Holdings.Separate start template x.workRoot
  kept : shown start x.skeleton = shown before x.skeleton

/-- Two failures, or two finished archives with the same report and the same files under the same
names in the same order. -/
def SameOutcome : Except ExportError ExportedArchive × FileSystem →
    Except ExportError ExportedArchive × FileSystem → Prop
  | (.error _, _), (.error _, _) => True
  | (.ok archive, opened), (.ok archive', opened') =>
    archive.report = archive'.report ∧ ∃ es es',
      archive.peek.runOn opened = (.ok (.file (.archive es)), opened) ∧
      archive'.peek.runOn opened' = (.ok (.file (.archive es')), opened') ∧
      es.map (fun e => (e.name, e.content)) = es'.map fun e => (e.name, e.content)
  | _, _ => False

section Founding

variable {x x' : Exporter} {request : Request} {w w' : Workspace} {rooted rooted' : FileSystem}

theorem founded_of_made {draw : Nat} {root : Address}
    (h : (Workspace.create draw root).runOn before = (.ok w, start)) :
    ∃ rooted loc, Founded root before rooted w loc start := by
  have hends := ends_create_founded draw root before
  rwa [Ends, h] at hends

theorem Writable.roomy (h : Writable x request before w start)
    (hf : Founded x.workRoot before rooted w loc start) : Roomy rooted loc start :=
  ⟨hf.confined, fun names e => h.room loc names e (hf.confined.resolve_home hf.site)⟩

/-- Workspaces that have just been made are both empty. -/
theorem abreast_founded (h : Writable x request before w start)
    (h' : Writable x' request before' w' start')
    (hf : Founded x.workRoot before rooted w loc start)
    (hf' : Founded x'.workRoot before' rooted' w' loc' start') :
    Abreast rooted loc rooted' loc' start start' := by
  refine ⟨h.roomy hf, h'.roomy hf', fun names => ?_⟩
  by_cases hne : names = []
  · rw [hne, List.append_nil, List.append_nil, hf.confined.made, hf'.confined.made]
    exact .directory
  · have hempty : start.get? (loc ++ names) = none := founded_empty hf names hne
    have hempty' : start'.get? (loc' ++ names) = none := founded_empty hf' names hne
    rw [hempty, hempty']
    exact .none

theorem Undisturbed.apart_workspace (h : Undisturbed x before start)
    (hf : Founded x.workRoot before rooted w loc start) : Apart start loc x.skeleton :=
  Holdings.apart_of_separate hf hf.confined h.apart

end Founding

theorem offered_unique {skeleton : Skeleton} {tree tree' : Tree}
    (hsame : shown start skeleton = shown start' skeleton) (h : Offered start skeleton tree)
    (h' : Offered start' skeleton tree') : tree = tree' := by
  cases skeleton with
  | builtin title =>
    obtain ⟨files, hfiles, rfl⟩ := h
    obtain ⟨files', hfiles', rfl⟩ := h'
    cases hfiles.symm.trans hfiles'
    rfl
  | directory root =>
    obtain ⟨there, hr, rfl⟩ := h
    obtain ⟨there', hr', rfl⟩ := h'
    have htree := treeAt_iff.mpr ⟨there, hr, rfl⟩
    have htree' := treeAt_iff.mpr ⟨there', hr', rfl⟩
    rw [Option.some.inj (htree.symm.trans (hsame.trans htree'))]

/-- Archives that list the same tree differ only in how they keep its files. -/
theorem lists_unique {level level' : Int64} {tree : Tree} {es es' : Archive}
    (h : Lists level tree es) (h' : Lists level' tree es') :
    es.map (fun e => (e.name, e.content)) = es'.map fun e => (e.name, e.content) := by
  obtain ⟨items, rfl, hordered, hmem⟩ := h.items
  obtain ⟨items', rfl, hordered', hmem'⟩ := h'.items
  have hsame : items = items' :=
    eq_of_ordered hordered hordered' fun e => (hmem e.1 e.2).trans (hmem' e.1 e.2).symm
  rw [hsame, List.map_map, List.map_map]
  refine List.map_congr_left fun e _ => ?_
  obtain ⟨names, e⟩ := e
  cases e <;> rfl

theorem runOn_run {x : Exporter} {request : Request} {w : Workspace}
    (hvalid : x.config.validate = .ok ())
    (hmade : (Workspace.create x.draw x.workRoot).runOn before = (.ok w, start)) :
    (x.run request).runOn before =
      match Exporter.readScreens x.config request with
      | .error e => (.error e, before)
      | .ok (project, skipped) => (w.keepOnSuccess (x.build project skipped w)).runOn start := by
  unfold Exporter.run
  rw [hvalid]
  cases Exporter.readScreens x.config request with
  | error e => rfl
  | ok read =>
    obtain ⟨project, skipped⟩ := read
    have hcreate (f : Workspace → FileAction ExportError ExportedArchive) :
        (Workspace.create x.draw x.workRoot >>= f).runOn before = (f w).runOn start := by
      rw [runOn_bind, hmade]
    exact hcreate fun workspace => workspace.keepOnSuccess (x.build project skipped workspace)

section Built

variable {x x' : Exporter} {request : Request} {w w' : Workspace} {rooted rooted' : FileSystem}
variable {project : Project} {skipped : List SkippedScreen} {archive archive' : ExportedArchive}
variable {opened opened' : FileSystem}

theorem shown_founded (hvariants : Variants x x')
    (hsame : shown before x.skeleton = shown before' x.skeleton) (hu : Undisturbed x before start)
    (hu' : Undisturbed x' before' start') : shown start x.skeleton = shown start' x.skeleton := by
  have hkept' := hu'.kept
  rw [hvariants.skeleton] at hkept'
  rw [hu.kept, hsame, hkept']

theorem endAlike_founded (hvariants : Variants x x') (h : Writable x request before w start)
    (h' : Writable x' request before' w' start') (hu : Undisturbed x before start)
    (hu' : Undisturbed x' before' start')
    (hsame : shown before x.skeleton = shown before' x.skeleton)
    (hf : Founded x.workRoot before rooted w loc start)
    (hf' : Founded x'.workRoot before' rooted' w' loc' start')
    (hread : Exporter.readScreens x.config request = .ok (project, skipped))
    (hread' : Exporter.readScreens x'.config request = .ok (project, skipped)) :
    EndAlike (Abreast rooted loc rooted' loc') Any Any (x.build project skipped w)
      (x'.build project skipped w') start start' := by
  have hapart := hu.apart_workspace hf
  have hapart' := hu'.apart_workspace hf'
  have hfits' := h'.fits
  rw [hvariants.skeleton] at hapart' hfits'
  refine endAlike_build hf.site hf'.site (h.ample project skipped hread)
    (h'.ample project skipped hread') hvariants skipped skipped
    (endAlike_materialize hf.site hf'.site (abreast_founded h h' hf hf') x.skeleton
      (shown_founded hvariants hsame hu hu') ?_ ?_ ?_ ?_)
  · intro root there hroot hr
    exact source_of_apart hf.confined (founded_empty hf) hr (hapart root there hroot hr)
  · intro root there hroot hr
    exact source_of_apart hf'.confined (founded_empty hf') hr (hapart' root there hroot hr)
  · exact fun tree names e htree he =>
      (fits_project hf.site.settled).mp (h.fits tree names e htree he)
  · exact fun tree names e htree he =>
      (fits_project hf'.site.settled).mp (hfits' tree names e htree he)

theorem peek_built (hu : Undisturbed x before start)
    (hf : Founded x.workRoot before rooted w loc start)
    (hbuild : (x.build project skipped w).runOn start = (.ok archive, opened)) :
    ∃ es tree ps main, archive.peek.runOn opened = (.ok (.file (.archive es)), opened) ∧
      es.length = archive.report.archiveEntries ∧ Offered start x.skeleton tree ∧
      pages project.routes project = .ok ps ∧
      entryPoint x.config.projectName project.routes = .ok main ∧
      Lists x.config.level (overlaid (generated main ps) tree) es := by
  have hends := ends_build hf.site hf.confined (founded_empty hf) x project skipped
  rw [Ends, hbuild] at hends
  obtain ⟨hi, tree, hoffered, hworkspace, hreached, ps, main, hps, hmain, es, hholds, hcount,
    hlists⟩ := hends
  exact ⟨es, tree, ps, main, runOn_peek hf.site hworkspace hreached hi hholds, hcount,
    hoffered (hu.apart_workspace hf), hps, hmain, hlists⟩

theorem sameOutcome_built (hvariants : Variants x x')
    (hsame : shown before x.skeleton = shown before' x.skeleton) (hu : Undisturbed x before start)
    (hu' : Undisturbed x' before' start') (hf : Founded x.workRoot before rooted w loc start)
    (hf' : Founded x'.workRoot before' rooted' w' loc' start')
    (hbuild : (x.build project skipped w).runOn start = (.ok archive, opened))
    (hbuild' : (x'.build project skipped w').runOn start' = (.ok archive', opened')) :
    SameOutcome (.ok archive, opened) (.ok archive', opened') := by
  obtain ⟨es, tree, ps, main, hpeek, hcount, hoffered, hps, hmain, hlists⟩ :=
    peek_built hu hf hbuild
  obtain ⟨es', tree', ps', main', hpeek', hcount', hoffered', hps', hmain', hlists'⟩ :=
    peek_built hu' hf' hbuild'
  rw [hvariants.title] at hmain'
  rw [hvariants.skeleton] at hoffered'
  cases hps.symm.trans hps'
  cases hmain.symm.trans hmain'
  cases offered_unique (shown_founded hvariants hsame hu hu') hoffered hoffered'
  have hfiles := lists_unique hlists hlists'
  have hlength : es.length = es'.length := by simpa using congrArg List.length hfiles
  obtain ⟨qs, hqs, hreport⟩ := Reports.build_ok (congrArg Prod.fst hbuild)
  obtain ⟨qs', hqs', hreport'⟩ := Reports.build_ok (congrArg Prod.fst hbuild')
  cases hqs.symm.trans hqs'
  refine ⟨?_, es, es', hpeek, hpeek', hfiles⟩
  rw [hreport, hreport', ← hcount, ← hcount', hlength]

end Built

theorem keeps_lacksRoom_create (room : Location → Entry → Bool) (draw : Nat) (root : Address) :
    Keeps (fun fs => fs.lacksRoom = room) (Workspace.create draw root) := by
  have hmake (a : Address) : Keeps (fun fs => fs.lacksRoom = room) (createDirectory a) := by
    intro fs hroom
    rcases createDirectory_cases a fs with ⟨e, he⟩ | ⟨loc, _, _, he⟩
    · rwa [he]
    · rwa [he, lacksRoom_put]
  unfold Workspace.create
  refine .mapError (.bind (keeps_createLineage_of fun a _ => hmake a) fun _ => ?_)
  refine .bind (keeps_look true root) fun place => .bind .get fun fs => ?_
  exact .bind (hmake _) fun _ => .pure _

/-- Whether a workspace can be made apart from a directory, on the way to a root of workspaces
that does not pass through it, and not so deep that names get too long. -/
def isLodged (x : Exporter) (template : Address) (before : FileSystem) : Bool :=
  match (Workspace.create x.draw x.workRoot).runOn before, resolve before true template with
  | (.ok w, start), .ok ⟨there, some .directory⟩ =>
    decide (w.address.written.length + reach ≤ addressLimit) &&
      decide (Holdings.Separate start template x.workRoot) &&
      ((lineage x.workRoot.written.length x.workRoot).all fun a =>
        match resolve start false a with
        | .ok p => !there.isPrefixOf p.location
        | .error _ => true) &&
      ([] :: (before.below there).map Prod.fst).all fun names => decide (Fits w.project names)
  | _, _ => false

/-- Making a workspace leaves a directory alone that is not passed on the way to it. -/
theorem shown_of_founded {root template : Address} {rooted : FileSystem} {w : Workspace}
    (hf : Founded root before rooted w loc start)
    (hr : resolve before true template = .ok ⟨there, some .directory⟩)
    (hapart : ∀ names, ¬ loc <+: there ++ names)
    (hway : ∀ a ∈ lineage root.written.length root, ∀ p, resolve start false a = .ok p →
      ¬ there <+: p.location) :
    treeAt start template = some (inside there before) := by
  have hrooted := resolve_grows hf.only.grows hr rfl
  have hstart := resolve_grows (hf.confined.grows hf.site) hrooted rfl
  refine treeAt_iff.mpr ⟨there, hstart, ?_⟩
  funext names
  rcases Holdings.kept_of_founded hf hf.confined hapart names with hsame | ⟨_, _, a, ha, hnew⟩
  · exact hsame
  · exact absurd (List.prefix_append there names) (hway a ha _ hnew)

theorem lodged (x : Exporter) (request : Request) (template : Address)
    (hskeleton : x.skeleton = .directory template)
    (hroom : ∀ loc e, before.lacksRoom loc e = false) (h : isLodged x template before = true) :
    ∃ w start, Writable x request before w start ∧ Undisturbed x before start := by
  unfold isLodged at h
  split at h
  · next w start there hmade hr =>
    simp only [Bool.and_eq_true, decide_eq_true_eq, List.all_eq_true] at h
    obtain ⟨⟨⟨hnear, hseparate⟩, hlineage⟩, hfits⟩ := h
    obtain ⟨rooted, loc, hf⟩ := founded_of_made hmade
    have hspace : start.lacksRoom = before.lacksRoom := by
      have hkept := keeps_lacksRoom_create before.lacksRoom x.draw x.workRoot before rfl
      rwa [hmade] at hkept
    have happart : ∀ given, x.skeleton = .directory given →
        Holdings.Separate start given x.workRoot := by
      rw [hskeleton]
      rintro _ ⟨⟩
      exact hseparate
    have hstart : treeAt start template = some (inside there before) := by
      refine shown_of_founded hf hr ?_ ?_
      · have hrooted := resolve_grows hf.only.grows hr rfl
        exact Holdings.apart_of_separate hf hf.confined happart template there hskeleton
          (resolve_grows (hf.confined.grows hf.site) hrooted rfl)
      · intro a ha p hp hin
        have hout := hlineage a ha
        rw [hp] at hout
        simp [List.isPrefixOf_iff_prefix.mpr hin] at hout
    refine ⟨w, start, ⟨hmade, ?_, ?_, fun project _ _ => ample_of_near hnear project⟩, happart, ?_⟩
    · intro loc names e _
      rw [hspace, hroom]
    · rw [hskeleton]
      rintro tree names e ⟨there', hr', rfl⟩ he
      obtain ⟨_, hplace, hinside⟩ := treeAt_iff.mp hstart
      cases hplace.symm.trans hr'
      rw [hinside] at he
      refine hfits names ?_
      by_cases hne : names = []
      · simp [hne]
      · rw [copied, if_neg hne] at he
        obtain ⟨hin, _⟩ := Option.filter_eq_some_iff.mp he
        exact List.mem_cons_of_mem _ (List.mem_map_of_mem (mem_below_iff.mpr ⟨hne, hin⟩))
    · rw [hskeleton]
      exact hstart.trans (treeAt_iff.mpr ⟨there, hr, rfl⟩).symm
  · cases h

/-- Where an export works, what its archive is called and how the files in it are kept has no
effect on whether it succeeds, on what it reports and on which files it hands out. -/
theorem exports_independent (x x' : Exporter) (request : Request)
    (before before' start start' : FileSystem) (w w' : Workspace) (hvariants : Variants x x')
    (hwritable : Writable x request before w start)
    (hwritable' : Writable x' request before' w' start')
    (hundisturbed : Undisturbed x before start) (hundisturbed' : Undisturbed x' before' start')
    (hsame : shown before x.skeleton = shown before' x.skeleton) :
    SameOutcome ((x.run request).runOn before) ((x'.run request).runOn before') := by
  have hread : Exporter.readScreens x'.config request = Exporter.readScreens x.config request := by
    unfold Exporter.readScreens
    rw [hvariants.isolation]
  obtain ⟨rooted, loc, hf⟩ := founded_of_made hwritable.made
  obtain ⟨rooted', loc', hf'⟩ := founded_of_made hwritable'.made
  rw [runOn_run hvariants.valid hwritable.made, runOn_run hvariants.valid' hwritable'.made, hread]
  cases hr : Exporter.readScreens x.config request with
  | error e => trivial
  | ok read =>
    obtain ⟨project, skipped⟩ := read
    have hbuilt := (endAlike_founded hvariants hwritable hwritable' hundisturbed hundisturbed' hsame
      hf hf' hr (hread.trans hr)).1
    dsimp only
    rw [runOn_keepOnSuccess, runOn_keepOnSuccess]
    cases hb : (x.build project skipped w).runOn start with
    | mk r opened =>
      cases hb' : (x'.build project skipped w').runOn start' with
      | mk r' opened' =>
        rw [hb, hb'] at hbuilt
        cases hbuilt with
        | error => trivial
        | ok =>
          exact sameOutcome_built hvariants hsame hundisturbed hundisturbed' hf hf' hb hb'

/-- An export whose archive is called like the directory of the project. -/
def colliding : Exporter :=
  { Holdings.exporter with config := { Holdings.exporter.config with archiveName := "project" } }

/-- The same export from another root of workspaces, with files that are stored as they are. -/
def elsewhere : Exporter :=
  { Holdings.exporter with
    config := { Holdings.exporter.config with
      archiveName := "archive.zip", workRoot := some "/elsewhere/deep", level := 0 }
    draw := 41 }

theorem exports_independent_colliding :
    ((colliding.run Holdings.request).runOn Holdings.templated).1.isOk = true ∧
      SameOutcome ((colliding.run Holdings.request).runOn Holdings.templated)
        ((elsewhere.run Holdings.request).runOn Holdings.templated) := by
  have hroom : ∀ loc e, Holdings.templated.lacksRoom loc e = false := by
    intro loc e
    simp only [Holdings.templated, List.foldl_cons, List.foldl_nil, lacksRoom_put]
    rfl
  obtain ⟨w, start, hwritable, hundisturbed⟩ :=
    lodged colliding Holdings.request Holdings.given rfl hroom (by decide +kernel)
  obtain ⟨w', start', hwritable', hundisturbed'⟩ :=
    lodged elsewhere Holdings.request Holdings.given rfl hroom (by decide +kernel)
  refine ⟨by decide +kernel, ?_⟩
  exact exports_independent colliding elsewhere Holdings.request Holdings.templated
    Holdings.templated start start' w w' ⟨rfl, rfl, rfl, rfl, rfl, rfl, rfl⟩ hwritable hwritable'
    hundisturbed hundisturbed' rfl

end Screenwright.Proofs.Independence
