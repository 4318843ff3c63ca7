import Screenwright.Export.Exporter
import Screenwright.Proofs.Confinement
import Screenwright.Proofs.Sources

namespace Screenwright.Proofs.Building
open Files Address Screen Flutter Export Addresses Running Confinement Identifiers Sources Outcomes

/-- A path that is spelt with some proper names. -/
structure Spelt (path : String) (names : Location) : Prop where
  ne_nil : names ≠ []
  proper : ∀ n ∈ names, n.isProper = true
  spelt : slash :: Text.bytesOf path = names.flatMap (slash :: ·)

theorem spelt_name {s : String} (h : FileName.isProper (Text.bytesOf s) = true) :
    Spelt s [Text.bytesOf s] := ⟨by simp, by simpa using h, by simp⟩

theorem Spelt.append {s t : String} {names more : Location} (hs : Spelt s names)
    (ht : Spelt t more) : Spelt (s ++ "/" ++ t) (names ++ more) := by
  have hslash : Text.bytesOf "/" = [slash] := by decide +kernel
  refine ⟨by simp [hs.ne_nil], ?_, ?_⟩
  · intro n hn
    rcases List.mem_append.mp hn with hn | hn
    · exact hs.proper n hn
    · exact ht.proper n hn
  · rw [bytesOf_append, bytesOf_append, hslash, List.flatMap_append, ← hs.spelt, ← ht.spelt]
    simp

theorem joinText_below {a : Address} (h : Settled a) {path : String} {names : Location}
    (hp : Spelt path names) : a.joinText path = below a names :=
  join_below h hp.spelt hp.proper

theorem spelt_screensDir : Spelt screensDir [Text.bytesOf "lib", Text.bytesOf "screens"] :=
  ⟨by decide, by decide +kernel, by decide +kernel⟩

theorem spelt_entryPath : Spelt entryPath [Text.bytesOf "lib", Text.bytesOf "main.dart"] :=
  ⟨by decide, by decide +kernel, by decide +kernel⟩

theorem spelt_skeleton {path : String} {pieces : List Template.Piece}
    (h : (path, pieces) ∈ Template.skeletonFiles) : Spelt path [Text.bytesOf path] := by
  simp only [Template.skeletonFiles, List.mem_cons, Prod.mk.injEq, List.not_mem_nil, or_false] at h
  rcases h with ⟨rfl, _⟩ | ⟨rfl, _⟩ | ⟨rfl, _⟩ | ⟨rfl, _⟩ <;>
    exact spelt_name (by decide +kernel)

theorem spelt_fileName {n : Name} (h : Clean n) :
    Spelt n.fileName [Text.bytesOf n.fileName] := by
  have hs : n.fileName.toList = 's' :: ("creen_".toList ++ n.base.toList.map Casing.lowerAscii ++
      ".dart".toList) := by
    simp [Name.fileName]
  exact spelt_name (isProper_bytesOf hs (by decide) h.isPlain_fileName)

theorem spelt_page {p : Page} (h : Clean p.name) :
    Spelt p.path ([Text.bytesOf "lib", Text.bytesOf "screens"] ++ [Text.bytesOf p.name.fileName]) :=
  spelt_screensDir.append (spelt_fileName h)

variable {before : FileSystem} {a : Address} {loc names : Location}

theorem proper_append {more : Location} (hn : ∀ n ∈ names, FileName.isProper n = true)
    (hm : ∀ n ∈ more, FileName.isProper n = true) :
    ∀ n ∈ names ++ more, FileName.isProper n = true :=
  fun n h => (List.mem_append.mp h).elim (hn n) (hm n)

theorem keeps_placed {ε : Type} {more : Location} (hs : Site before a loc)
    (hn : ∀ n ∈ names, n.isProper = true) (hm : ∀ n ∈ more, n.isProper = true) (hne : more ≠ [])
    {f : FileError → ε} {act : FileAction ε Unit} (h : Keeps (Confined before loc) act) :
    Keeps (Confined before loc)
      (do FileAction.mapError f
            (createDirectories ((below a (names ++ more)).parent?.getD (below a names)))
          act) := by
  have hall := proper_append hn hm
  rw [parent?_joined hs.settled hall (by simp [hne]), Option.getD_some]
  refine .bind (.mapError (keeps_createDirectories hs fun n hmem => hall n ?_)) fun _ => h
  exact (List.dropLast_sublist _).subset hmem

theorem keeps_placeFile (hs : Site before a loc) (hn : ∀ n ∈ names, n.isProper = true)
    {file : SourceFile} {more : Location} (hp : Spelt file.path more) :
    Keeps (Confined before loc) (Skeleton.placeFile (below a names) file) := by
  unfold Skeleton.placeFile
  simp only [joinText_below (hs.settled.below hn) hp, below_append]
  refine keeps_placed hs hn hp.proper hp.ne_nil (.mapError ?_)
  exact keeps_putFile hs (by simp [hp.ne_nil]) (proper_append hn hp.proper) _

theorem keeps_copyEntry (hs : Site before a loc) (hn : ∀ n ∈ names, n.isProper = true)
    (root : Address) {entry : Location × Entry} (hne : entry.1 ≠ [])
    (hm : ∀ n ∈ entry.1, n.isProper = true) :
    Keeps (Confined before loc) (Skeleton.copyEntry root (below a names) entry) := by
  have hall := proper_append hn hm
  unfold Skeleton.copyEntry
  simp only [joinLocation_below (hs.settled.below hn) hm, below_append]
  split
  · exact .mapError (keeps_createDirectories hs hall)
  · exact keeps_placed hs hn hm hne (.mapError (keeps_copyFile hs (by simp [hne]) hall _))
  · exact .pure ()

theorem spelt_of_skeleton {title : String} {files : List SourceFile}
    (h : Flutter.skeleton title = .ok files) :
    ∀ file ∈ files, ∃ more, Spelt file.path more := by
  intro file hf
  obtain ⟨⟨path, pieces⟩, hmem, hr⟩ := exists_of_forall₂ (mapM_ok_iff.mp h) hf
  cases hs : renderSource path [("title", title)] with
  | error e =>
    simp only [hs] at hr
    cases hr
  | ok content =>
    simp only [hs] at hr
    cases hr
    exact ⟨_, spelt_skeleton hmem⟩

theorem keeps_materialize (hs : Site before a loc) (hn : ∀ n ∈ names, n.isProper = true)
    (skeleton : Skeleton) :
    Keeps (Confined before loc) (skeleton.materialize (below a names)) := by
  unfold Skeleton.materialize
  cases skeleton with
  | builtin title =>
    refine .ofExcept_bind fun files hfiles => .forM fun file hf => ?_
    obtain ⟨more, hp⟩ := spelt_of_skeleton (mapError_ok_iff.mp hfiles) file hf
    exact keeps_placeFile hs hn hp
  | directory root =>
    refine .bind (keeps_isDirectory root) fun there => ?_
    have hcopy : Keeps (Confined before loc) (do
        FileAction.mapError (ExportError.file (below a names)) (createDirectories (below a names))
        let entries ← FileAction.mapError (ExportError.listing root) (listTree root)
        entries.forM (Skeleton.copyEntry root (below a names))) := by
      refine .bind (.mapError (keeps_createDirectories hs hn)) fun _ => ?_
      refine .bind_of (Q := Named) (.mapError (keeps_listTree root)) (fun fs entries h => ?_)
        fun entries hentries => .forM fun e he => ?_
      · exact named_listTree (mapError_ok_iff.mp h)
      · exact keeps_copyEntry hs hn root (hentries e he).1 (hentries e he).2
    split
    · exact .bind (.throw _) fun _ => hcopy
    · exact hcopy

theorem clean_nameFor (labels : List String) (screen : Screen) (index : Nat) :
    Clean (nameFor (.resolve labels) screen index) := by
  unfold nameFor Routes.nameAt?
  cases he : (Routes.resolve labels).entries[index]? with
  | none => exact clean_ofLabel screen.label
  | some e => exact clean_resolve labels e (List.mem_of_getElem? he)

theorem name_of_page {routes : Routes} {screen : Screen} {n : Name} {p : Page}
    (h : page routes screen n = .ok p) : p.name = n := by
  unfold page at h
  cases hr : renderSource "screen"
      [("class_name", n.className), ("body", body routes screen.tree)] with
  | error e =>
    simp only [hr] at h
    cases h
  | ok source =>
    simp only [hr] at h
    cases h
    rfl

theorem keeps_writePage (hs : Site before a loc) (hn : ∀ n ∈ names, n.isProper = true)
    (deadline : Deadline) (labels : List String) (screen : Screen) (index : Nat) :
    Keeps (Confined before loc)
      (writePage deadline (.resolve labels) (below a names) screen index) := by
  unfold writePage
  refine .bind (.ofExcept _) fun _ => .ofExcept_bind fun p hp => ?_
  have hname := name_of_page (mapError_ok_iff.mp hp)
  have hspelt := spelt_page (p := p) (hname ▸ clean_nameFor labels screen index)
  simp only [joinText_below (hs.settled.below hn) hspelt, below_append]
  refine .bind (.mapError (keeps_putFile hs (by simp) ?_ _)) fun _ => .pure _
  exact proper_append hn hspelt.proper

theorem keeps_assemble (hs : Site before a loc) (hn : ∀ n ∈ names, n.isProper = true)
    (title : String) (deadline : Deadline) (project : Project) (skeleton : Skeleton) :
    Keeps (Confined before loc)
      (assemble title deadline project project.routes skeleton (below a names)) := by
  have hjoin {path : String} {more : Location} (hp : Spelt path more) :
      (below a names).joinText path = below a (names ++ more) := by
    rw [joinText_below (hs.settled.below hn) hp, below_append]
  unfold assemble
  simp only [hjoin spelt_screensDir, hjoin spelt_entryPath]
  refine .bind (keeps_materialize hs hn skeleton) fun _ => ?_
  refine .bind (.mapError (keeps_createDirectories hs ?_)) fun _ => ?_
  · exact proper_append hn spelt_screensDir.proper
  refine .bind (.mapM fun s _ => keeps_writePage hs hn deadline _ s.1 s.2) fun entries => ?_
  refine .bind (.ofExcept _) fun _ => .bind (.ofExcept _) fun main => ?_
  refine .bind (.mapError (keeps_putFile hs (by simp) ?_ _)) fun _ => .pure _
  exact proper_append hn spelt_entryPath.proper

/-- A file holds an archive with some entries. -/
def Holds (loc : Location) (es : Archive) (fs : FileSystem) : Prop :=
  fs.get? loc = some (.file (.archive es))

/-- The archive file always holds what has been packed so far. -/
theorem runs_packEntries (hs : Site before a loc) (hne : names ≠ [])
    (hn : ∀ n ∈ names, n.isProper = true) (level : Int64) (deadline : Deadline)
    (entries : List (Location × Entry)) (unit : Nat) (archive : Archive) :
    Runs (Confined before loc) (Holds (loc ++ names) archive)
      (packEntries level deadline (below a names) unit archive entries)
      (Holds (loc ++ names)) := by
  induction entries generalizing unit archive with
  | nil => exact .pure fun _ h => h
  | cons entry entries ih =>
    unfold packEntries
    refine (runs_ofExcept _).bind fun _ => (runs_ofExcept _).bind fun found => ?_
    split
    · exact (ih _ _).then fun fs _ hp => hp.1.1
    · refine (runs_ofExcept _).bind fun more => ?_
      exact (runs_putFile hs hne hn (.archive more)).mapError.bind fun _ => ih _ _

theorem runs_package (hs : Site before a loc) (hne : names ≠ [])
    (hn : ∀ n ∈ names, n.isProper = true) (level : Int64) (deadline : Deadline) (root : Address) :
    Runs (Confined before loc) (fun _ => True) (package level deadline root (below a names))
      fun count fs => ∃ es, Holds (loc ++ names) es fs ∧ es.length = count := by
  unfold package
  refine (runs_putFile hs hne hn (.archive [])).mapError.bind fun _ => runs_get.bind fun fs => ?_
  split
  · exact (runs_ofExcept _).bind fun _ => .throw _
  · refine ((runs_packEntries hs hne hn level deadline _ 0 []).bind fun archive => .pure ?_).then ?_
    · exact fun fs hes => ⟨archive, hes, rfl⟩
    · exact fun fs _ hp => hp.1

/-- A finished archive lies in its workspace, with as many entries as its report says. -/
structure Finished (a : Address) (loc : Location) (archive : ExportedArchive) (fs : FileSystem) :
    Prop where
  workspace : archive.workspace = ⟨a⟩
  holds : ∃ es, Holds (loc ++ [Text.bytesOf "archive.zip"]) es fs ∧
    es.length = archive.report.archiveEntries

theorem spelt_archive : Spelt "archive.zip" [Text.bytesOf "archive.zip"] :=
  spelt_name (by decide +kernel)

theorem spelt_project : Spelt "project" [Text.bytesOf "project"] :=
  spelt_name (by decide +kernel)

theorem archive_below (h : Settled a) :
    (Workspace.mk a).archive = below a [Text.bytesOf "archive.zip"] :=
  joinText_below h spelt_archive

theorem project_below (h : Settled a) :
    (Workspace.mk a).project = below a [Text.bytesOf "project"] :=
  joinText_below h spelt_project

/-- A build stays in its workspace, and leaves a finished archive there if it succeeds. -/
theorem runs_build (hs : Site before a loc) (x : Exporter) (project : Project)
    (skipped : List SkippedScreen) :
    Runs (Confined before loc) (fun _ => True) (x.build project skipped ⟨a⟩)
      fun archive fs => Finished a loc archive fs := by
  unfold Exporter.build
  simp only [archive_below hs.settled, project_below hs.settled]
  refine (keeps_assemble hs spelt_project.proper _ _ project x.skeleton).runs.bind fun report => ?_
  refine (runs_package hs (by simp) spelt_archive.proper _ _ _).bind fun count => .pure ?_
  rintro fs ⟨es, hes, rfl⟩
  exact ⟨rfl, es, hes, rfl⟩

end Screenwright.Proofs.Building
