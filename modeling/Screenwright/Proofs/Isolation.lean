import Mathlib.Data.List.Basic
import Screenwright.Export.Exporter
import Screenwright.Proofs.Running

namespace Screenwright.Proofs.Isolation
open Files FileAction Design Screen Export Running

def isReadable (source : Source) : Bool := (DesignTree.parse source.2).isOk

/-- The screens of a request whose documents can be read, in its order. -/
def readablePart (request : Request) : Request := request.filter isReadable

/-- What is reported of a document that cannot be read. -/
def skippedFor (source : Source) : Option SkippedScreen :=
  match DesignTree.parse source.2 with
  | .ok _ => none
  | .error cause => some ⟨source.1, (ProjectError.invalidDocument source.1 cause).message⟩

def skippedOf (request : Request) : List SkippedScreen := request.entries.filterMap skippedFor

def under (isolation : Isolation) (x : Exporter) : Exporter :=
  { x with config := { x.config with isolation } }

def setSkipped (skipped : List SkippedScreen) (report : Report) : Report := { report with skipped }

def leavingOut (skipped : List SkippedScreen) (archive : ExportedArchive) : ExportedArchive :=
  { archive with report := setSkipped skipped archive.report }

theorem parse_readable {source : Source} (h : isReadable source = true) :
    ∃ screen, Screen.parse source = .ok screen := by
  unfold isReadable at h
  unfold Screen.parse
  cases hp : DesignTree.parse source.2 with
  | ok tree => exact ⟨_, rfl⟩
  | error cause =>
    rw [hp] at h
    cases h

theorem parse_unreadable {source : Source} (h : isReadable source = false) :
    ∃ cause, DesignTree.parse source.2 = .error cause ∧
      Screen.parse source = .error (.invalidDocument source.1 cause) := by
  unfold isReadable at h
  unfold Screen.parse
  cases hp : DesignTree.parse source.2 with
  | ok tree =>
    rw [hp] at h
    cases h
  | error cause => exact ⟨cause, rfl, rfl⟩

/-- Of the readable sources, every one becomes a screen. -/
theorem mapM_readable (sources : List Source) :
    (sources.filter isReadable).mapM Screen.parse = .ok (Project.readable sources) := by
  unfold Project.readable
  induction sources with
  | nil => rfl
  | cons source rest ih =>
    cases hr : isReadable source with
    | true =>
      obtain ⟨screen, hs⟩ := parse_readable hr
      rw [List.filter_cons_of_pos hr, List.mapM_cons, hs, ih]
      simp only [List.filterMap_cons, hs]
      rfl
    | false =>
      obtain ⟨cause, -, hs⟩ := parse_unreadable hr
      rw [List.filter_cons_of_neg (by simp [hr]), ih]
      simp only [List.filterMap_cons, hs]
      rfl

/-- The first source that cannot be read decides. -/
theorem mapM_unreadable {good rest : List Source} {source : Source} {e : ProjectError}
    (hgood : ∀ s ∈ good, isReadable s = true) (he : Screen.parse source = .error e) :
    (good ++ source :: rest).mapM Screen.parse = .error e := by
  induction good with
  | nil =>
    rw [List.nil_append, List.mapM_cons, he]
    rfl
  | cons s good ih =>
    obtain ⟨hs, hrest⟩ := List.forall_mem_cons.mp hgood
    obtain ⟨screen, hscreen⟩ := parse_readable hs
    rw [List.cons_append, List.mapM_cons, hscreen, ih hrest]
    rfl

theorem map_unreadable (sources : List Source) :
    (Project.unreadable sources).map SkippedScreen.of = sources.filterMap skippedFor := by
  unfold Project.unreadable
  rw [List.map_filterMap]
  congr 1
  funext source
  unfold Screen.parse skippedFor
  cases DesignTree.parse source.2 <;> rfl

theorem parseAll_readable (request : Request) :
    Project.parseAll (readablePart request).entries =
      Project.ofScreens (Project.readable request.entries) := by
  have hm : (readablePart request).entries.mapM Screen.parse =
      .ok (Project.readable request.entries) := mapM_readable request.entries
  rw [Project.parseAll, hm]
  rfl

/-- What is read of a request differs from what is read of its readable part in the screens that
are left out. -/
theorem readScreens_under (x : Exporter) (request : Request) :
    Exporter.readScreens (under .skipInvalid x).config request =
      (Exporter.readScreens (under .abortAll x).config (readablePart request)).map
        fun read => (read.1, skippedOf request) := by
  simp only [Exporter.readScreens, under, Project.parseLenient, parseAll_readable]
  cases Project.ofScreens (Project.readable request.entries) with
  | error e => rfl
  | ok project =>
    have hs : (Project.unreadable request.entries).map SkippedScreen.of = skippedOf request :=
      map_unreadable request.entries
    simp [bind, Except.bind, Except.mapError, Except.map, pure, Except.pure, hs, Functor.map]

/-- What is built does not depend on the screens left out, except for the report on them. -/
theorem build_skipped (x : Exporter) (project : Project) (skipped others : List SkippedScreen)
    (w : Workspace) :
    x.build project skipped w = leavingOut skipped <$> x.build project others w := by
  simp only [Exporter.build, map_bind, map_pure]
  rfl

theorem keepOnSuccess_map {ε α β : Type} (w : Workspace) (f : α → β) (act : FileAction ε α) :
    w.keepOnSuccess (f <$> act) = f <$> w.keepOnSuccess act := by
  funext fs
  have hmap (act : FileAction ε α) (fs : FileSystem) :
      (f <$> act) fs = ((act fs).1.map f, (act fs).2) := by
    change ((f <$> act).runOn fs) = _
    rw [map_eq_pure_bind, runOn_bind]
    unfold runOn
    cases act fs with
    | mk r after => cases r <;> rfl
  rw [hmap]
  unfold Workspace.keepOnSuccess runOn
  rw [hmap]
  cases act fs with
  | mk r after => cases r <;> rfl

theorem ofExcept_ok_bind {ε α β : Type} (a : α) (f : α → FileAction ε β) :
    FileAction.ofExcept (.ok a) >>= f = f a := rfl

/-- Leaving out what cannot be read does to all files what is done for the rest alone, and it
ends with the same error or the same archive. -/
theorem run_under (x : Exporter) (request : Request) :
    (under .skipInvalid x).run request =
      leavingOut (skippedOf request) <$> (under .abortAll x).run (readablePart request) := by
  have hread := readScreens_under x request
  unfold Exporter.run
  rw [hread, map_bind]
  refine congrArg (FileAction.ofExcept x.config.validate >>= ·) ?_
  funext _
  cases Exporter.readScreens (under .abortAll x).config (readablePart request) with
  | error e => rfl
  | ok read =>
    obtain ⟨project, skipped⟩ := read
    simp only [Except.map, ofExcept_ok_bind, map_bind]
    refine congrArg (Workspace.create x.draw x.workRoot >>= ·) ?_
    funext w
    rw [build_skipped _ project _ skipped, keepOnSuccess_map]
    rfl

/-- What a sink is offered, and how that ends, is the same up to the report. -/
theorem exportTo_under (x : Exporter) (request : Request) (sink : Sink) :
    (under .skipInvalid x).exportTo request sink =
      (fun sent => (sent.1, sent.2.map (setSkipped (skippedOf request)))) <$>
        (under .abortAll x).exportTo (readablePart request) sink := by
  unfold Exporter.exportTo
  rw [run_under, ExceptT.run_map, map_bind, bind_map_left]
  refine congrArg (((under .abortAll x).run (readablePart request)).run >>= ·) ?_
  funext r
  cases r with
  | error e => rfl
  | ok archive =>
    simp only [Except.map, map_bind]
    refine congrArg ((archive.send sink).run >>= ·) ?_
    funext sent
    rcases sent with e | ⟨content, _ | _⟩ <;> rfl

theorem run_of_error {x : Exporter} {request : Request} {e : ExportError}
    (hv : x.config.validate = .ok ()) (h : Exporter.readScreens x.config request = .error e)
    (before : FileSystem) : (x.run request).runOn before = (.error e, before) := by
  unfold Exporter.run
  rw [hv, h]
  rfl

theorem run_unreadable {x : Exporter} (hv : x.config.validate = .ok ()) {request : Request}
    {good rest : List Source} {source : Source} {cause : Json.Error}
    (hr : request.entries = good ++ source :: rest) (hgood : ∀ s ∈ good, isReadable s = true)
    (hs : Screen.parse source = .error (.invalidDocument source.1 cause)) (before : FileSystem) :
    ((under .abortAll x).run request).runOn before =
      (.error (.project (.invalidDocument source.1 cause)), before) := by
  refine run_of_error (x := under .abortAll x) hv ?_ before
  simp only [Exporter.readScreens, under, Project.parseAll, hr, mapM_unreadable hgood hs]
  rfl

/-- Among entries of which one cannot be read, there is a first one. -/
theorem first_unreadable {sources : List Source} (h : ∃ s ∈ sources, isReadable s = false) :
    ∃ good source rest, sources = good ++ source :: rest ∧
      (∀ s ∈ good, isReadable s = true) ∧ isReadable source = false := by
  obtain ⟨s, hs, hbad⟩ := h
  have hfound : (sources.find? fun s => !isReadable s).isSome := by
    rw [List.find?_isSome]
    exact ⟨s, hs, by simp [hbad]⟩
  obtain ⟨source, hsource⟩ := Option.isSome_iff_exists.mp hfound
  obtain ⟨hfirst, good, rest, hsplit, hgood⟩ := List.find?_eq_some_iff_append.mp hsource
  refine ⟨good, source, rest, hsplit, ?_, ?_⟩
  · intro s hs
    simpa using hgood s hs
  · simpa using hfirst

/-- Both isolations on one request. -/
structure Isolated (x : Exporter) (request : Request) : Prop where
  /-- Leaving documents out gives the export of the others, and the same changes to all files. -/
  run : (under .skipInvalid x).run request =
    leavingOut (skippedOf request) <$> (under .abortAll x).run (readablePart request)
  sent : ∀ sink, (under .skipInvalid x).exportTo request sink =
    (fun sent => (sent.1, sent.2.map (setSkipped (skippedOf request)))) <$>
      (under .abortAll x).exportTo (readablePart request) sink
  none_left : (∀ s ∈ request.entries, isReadable s = false) → ∀ before,
    ((under .skipInvalid x).run request).runOn before = (.error (.project .noScreens), before) ∧
    ((under .abortAll x).run (readablePart request)).runOn before =
      (.error (.project .noScreens), before)
  /-- Otherwise the first document that cannot be read fails the whole export. -/
  aborted : (∃ s ∈ request.entries, isReadable s = false) →
    ∃ good source rest cause, request.entries = good ++ source :: rest ∧
      (∀ s ∈ good, isReadable s = true) ∧ DesignTree.parse source.2 = .error cause ∧
      ∀ before, ((under .abortAll x).run request).runOn before =
        (.error (.project (.invalidDocument source.1 cause)), before)

theorem exports_isolated (x : Exporter) (request : Request) (hv : x.config.validate = .ok ()) :
    Isolated x request where
  run := run_under x request
  sent := exportTo_under x request
  none_left := by
    intro hnone before
    have hpart : (readablePart request).entries = [] := by
      refine List.filter_eq_nil_iff.mpr fun s hs => ?_
      simp [hnone s hs]
    have hread : Exporter.readScreens (under .abortAll x).config (readablePart request) =
        .error (.project .noScreens) := by
      simp only [Exporter.readScreens, under, Project.parseAll, hpart]
      rfl
    refine ⟨run_of_error (x := under .skipInvalid x) hv ?_ before,
      run_of_error (x := under .abortAll x) hv hread before⟩
    rw [readScreens_under, hread]
    rfl
  aborted := by
    intro hbad
    obtain ⟨good, source, rest, hsplit, hgood, hsource⟩ := first_unreadable hbad
    obtain ⟨cause, hcause, hs⟩ := parse_unreadable hsource
    exact ⟨good, source, rest, cause, hsplit, hgood, hcause, run_unreadable hv hsplit hgood hs⟩

def mixed : Request := .ofList [
  ("Home", "\x7b\"ROOT\":\x7b\"type\":\"Text\"\x7d\x7d"),
  ("Broken", "\x7b\"ROOT\":"),
  ("home", "\x7b\x7d"),
  ("Text", "[]")]

def exporter : Exporter where
  config := {}
  skeleton := .builtin "App"
  base := []
  temporary := ⟨[], Text.bytesOf "/tmp"⟩

theorem exports_isolated_mixed :
    exporter.config.validate = .ok () ∧ Isolated exporter mixed ∧
      (readablePart mixed).keys = ["Home", "home"] ∧
      (skippedOf mixed).map SkippedScreen.label = ["Broken", "Text"] := by
  have hname : Config.isArchiveName exporter.config.archiveName = true := by decide +kernel
  have hv : exporter.config.validate = .ok () := by
    rw [Config.validate, if_neg (by decide), if_pos hname]
  exact ⟨hv, exports_isolated exporter mixed hv, by decide +kernel, by decide +kernel⟩

end Screenwright.Proofs.Isolation
