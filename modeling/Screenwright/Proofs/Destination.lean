import Screenwright.CommandLine.Run
import Screenwright.Proofs.Cleanup
import Screenwright.Proofs.Writes

namespace Screenwright.Proofs.Destination
open Files FileSystem FileAction Address Export CommandLine
open Entries Walks Running Cleanup Writes

def found (fs : FileSystem) (a : Address) : Option Entry :=
  match resolve fs true a with
  | .ok place => place.entry
  | .error _ => none

def output (s : Surroundings) (o : ArchiveOptions) : Address := .ofText s.base o.output

def readSetup (s : Surroundings) (o : ArchiveOptions) : FileAction Trail (Config × Request) := do
  let config ← readConfig s o
  let request ← readRequest s o.input
  return (config, request)

/-- A command has read its settings and its request and has made its output, but then the archive
cannot be built. -/
def Unbuilt (s : Surroundings) (o : ArchiveOptions) (before after : FileSystem) : Prop :=
  ∃ config request made cause,
    (readSetup s o).runOn before = (.ok (config, request), before) ∧
    (putFile (output s o) .empty).runOn before = (.ok (), made) ∧
    ((exporter s o config).run request).runOn made = (.error cause, after)

variable {fs fs' : FileSystem} {p : Place}

theorem found_of_resolve {a : Address} {e : Entry} (hr : resolve fs true a = .ok p)
    (he : p.entry = some e) : found fs a = some e := by
  rw [found, hr]
  exact he

variable {I : FileSystem → Prop}

theorem keeps_readText (a : Address) : Keeps I (readText a) := by
  unfold readText
  refine .bind (keeps_contentAt a) fun content => ?_
  split
  · exact .pure _
  · exact .throw _

theorem keeps_readSetup (s : Surroundings) (o : ArchiveOptions) : Keeps I (readSetup s o) := by
  have hload (path : String) : Keeps I (loadConfig s path) :=
    .bind (.mapError (keeps_readText _)) fun _ => .ofExcept _
  have hconfig : Keeps I (readConfig s o) := by
    unfold readConfig
    split
    · exact .bind (.mapError (hload _)) fun _ => .pure _
    · exact .bind (.pure _) fun _ => .pure _
  have hinput : Keeps I (readInput s o.input) := by
    unfold readInput
    split
    · exact .mapError (keeps_readText _)
    · split
      · exact .pure _
      · exact .throw _
  exact .bind hconfig fun _ => .bind (.bind hinput fun _ => .ofExcept _) fun _ => .pure _

/-- What a command does once it has its settings and its request, when its output is a file. -/
def deliver (s : Surroundings) (o : ArchiveOptions) (x : Exporter) (request : Request) :
    FileAction Trail Outcome := do
  .mapError (fun e => ["creating " ++ o.output, e.message]) (putFile (output s o) .empty)
  let (content, report) ← exportContent x request
  .mapError (fun e => ["creating " ++ o.output, e.message]) (putFile (output s o) content)
  return ⟨0, .empty, if o.report then report.toValue.pretty ++ "\n" else ""⟩

theorem runArchive_eq (s : Surroundings) {o : ArchiveOptions} (hfile : o.output ≠ "-") :
    runArchive s o =
      readSetup s o >>= fun setup => deliver s o (exporter s o setup.1) setup.2 := by
  simp only [runArchive, readSetup, deliver, output, if_neg hfile, bind_assoc, pure_bind]

theorem runOn_mapError {ε δ α : Type} (f : ε → δ) (act : FileAction ε α) (fs : FileSystem) :
    (act.mapError f).runOn fs = ((act.runOn fs).1.mapError f, (act.runOn fs).2) := rfl

/-- An export that fails tells nothing but that it has failed. -/
theorem runOn_exportContent {x : Exporter} {request : Request} {cause : ExportError}
    (h : (x.run request).runOn fs = (.error cause, fs')) :
    (exportContent x request).runOn fs = (.error [ExportFailure.message ⟨⟩], fs') := by
  have hends := ends_exportTo x request {} fs
  rw [Ends, h] at hends
  have hsent : x.exportTo request {} fs = ((none, .error ⟨⟩), fs') := hends
  unfold exportContent
  have hlift : (liftM (x.exportTo request {}) : FileAction Trail _).runOn fs =
      (.ok (none, .error ⟨⟩), fs') := by
    unfold runOn
    simp only [liftM, monadLift, MonadLift.monadLift, ExceptT.lift, ExceptT.mk, Functor.map,
      StateT.map, bind, hsent]
    rfl
  rw [runOn_bind, hlift]
  rfl

theorem runOn_deliver {s : Surroundings} {o : ArchiveOptions} {x : Exporter} {request : Request}
    {made : FileSystem} {cause : ExportError}
    (hmade : (putFile (output s o) .empty).runOn fs = (.ok (), made))
    (hfail : (x.run request).runOn made = (.error cause, fs')) :
    (deliver s o x request).runOn fs = (.error [ExportFailure.message ⟨⟩], fs') := by
  unfold deliver
  rw [runOn_bind, runOn_mapError, hmade]
  dsimp only [Except.mapError]
  rw [runOn_bind, runOn_exportContent hfail]

theorem run_archive {s : Surroundings} {args : List String} {o : ArchiveOptions}
    (hargs : readCommand args = .ok (.archive o)) (hfile : o.output ≠ "-") (fs : FileSystem) :
    (run s args).run fs =
      match (readSetup s o >>= fun setup => deliver s o (exporter s o setup.1) setup.2).runOn fs with
      | (.ok outcome, after) => (outcome, after)
      | (.error trail, after) => (⟨1, .empty, trail.message⟩, after) := by
  rw [← runArchive_eq s hfile]
  unfold run
  rw [hargs]
  unfold runCommand runOn
  simp only [bind, StateT.bind, StateT.run, ExceptT.run]
  cases runArchive s o fs with
  | mk r after => cases r <;> rfl

/-- When the archive of a command cannot be built, its output is an empty file afterwards. -/
theorem run_unbuilt {s : Surroundings} {args : List String} {o : ArchiveOptions}
    {before after : FileSystem} (hargs : readCommand args = .ok (.archive o))
    (hfile : o.output ≠ "-") (h : Unbuilt s o before after) :
    (run s args).run before = (⟨1, .empty, Trail.message [ExportFailure.message ⟨⟩]⟩, after) ∧
      found after (output s o) = some (.file .empty) := by
  obtain ⟨config, request, made, cause, hsetup, hmade, hfail⟩ := h
  constructor
  · rw [run_archive hargs hfile, runOn_bind, hsetup]
    dsimp only
    rw [runOn_deliver hmade hfail]
  · obtain ⟨loc, hwrote⟩ := putFile_wrote hmade
    have hgone : OnlyMade (exporter s o config).workRoot made after := by
      have hends := ends_run (exporter s o config) request made
      rwa [Ends, hfail] at hends
    exact found_of_resolve (resolve_grows hgone.grows hwrote.leads rfl) rfl

/-- A command whose archive cannot be built leaves its output an empty file, so the output is as
it was exactly when it was one before. A command that cannot read its settings or its request has
not come to make its output and leaves all files as they were. -/
theorem failed_exports_empty_output (s : Surroundings) (args : List String) (o : ArchiveOptions)
    (before : FileSystem) (hargs : readCommand args = .ok (.archive o)) (hfile : o.output ≠ "-") :
    (∀ trail, ((readSetup s o).runOn before).1 = .error trail →
      (run s args).run before = (⟨1, .empty, trail.message⟩, before)) ∧
    ∀ after, Unbuilt s o before after →
      (run s args).run before = (⟨1, .empty, Trail.message [ExportFailure.message ⟨⟩]⟩, after) ∧
      found after (output s o) = some (.file .empty) ∧
      (found after (output s o) = found before (output s o) ↔
        found before (output s o) = some (.file .empty)) := by
  constructor
  · intro trail h
    have hsame : ((readSetup s o).runOn before).2 = before :=
      keeps_readSetup (I := (· = before)) s o before rfl
    have hsetup : (readSetup s o).runOn before = (.error trail, before) := Prod.ext h hsame
    rw [run_archive hargs hfile, runOn_bind, hsetup]
  · intro after h
    obtain ⟨hrun, hempty⟩ := run_unbuilt hargs hfile h
    exact ⟨hrun, hempty, by rw [hempty]; exact eq_comm⟩

/-- Whether a command comes to its export and fails there. -/
def isUnbuilt (s : Surroundings) (o : ArchiveOptions) (before : FileSystem) : Bool :=
  match (readSetup s o).runOn before with
  | (.error _, _) => false
  | (.ok setup, _) =>
    match (putFile (output s o) .empty).runOn before with
    | (.error _, _) => false
    | (.ok _, made) => !(((exporter s o setup.1).run setup.2).runOn made).1.isOk

theorem exists_unbuilt {s : Surroundings} {o : ArchiveOptions} {before : FileSystem}
    (h : isUnbuilt s o before = true) : ∃ after, Unbuilt s o before after := by
  have hsame : ((readSetup s o).runOn before).2 = before :=
    keeps_readSetup (I := (· = before)) s o before rfl
  unfold isUnbuilt at h
  cases hsetup : (readSetup s o).runOn before with
  | mk r read =>
    rw [hsetup] at h hsame
    obtain rfl : read = before := hsame
    cases r with
    | error trail => cases h
    | ok setup =>
      cases hmade : (putFile (output s o) .empty).runOn read with
      | mk r made =>
        cases r with
        | error e => simp [hmade] at h
        | ok _ =>
          simp only [hmade] at h
          cases hrun : ((exporter s o setup.1).run setup.2).runOn made with
          | mk r after =>
            cases r with
            | ok archive => simp [hrun, Except.isOk, Except.toBool] at h
            | error cause => exact ⟨after, setup.1, setup.2, made, cause, hsetup, hmade, hrun⟩

def holding (content : Content) : FileSystem :=
  (∅ : FileSystem).put [Text.bytesOf "out.zip"] (.file content)

def offered (text : String) : Surroundings where
  base := []
  temporary := ⟨[], Text.bytesOf "/tmp"⟩
  input := text.toUTF8

def arguments : List String := ["export", "--output", "out.zip"]

def options : ArchiveOptions where
  input := none
  output := "out.zip"
  config := none
  templateDir := none
  projectName := none
  skipInvalid := false
  timeout := none
  report := false

theorem read_arguments : readCommand arguments = .ok (.archive options) := rfl

theorem resolve_holding (content : Content) :
    resolve (holding content) true (.ofText [] "out.zip") =
      .ok ⟨[Text.bytesOf "out.zip"], some (.file content)⟩ := by
  have hproper : FileName.isProper (Text.bytesOf "out.zip") = true := by decide +kernel
  have hplain : 0 ∉ Text.bytesOf "out.zip" ∧ Text.bytesOf "out.zip" ≠ [] ∧
      (Text.bytesOf "out.zip").length ≤ nameLimit ∧
      isAbsolute (Text.bytesOf "out.zip") = false := by decide +kernel
  obtain ⟨hzero, hne, hshort, habsolute⟩ := hplain
  have hentry : (holding content).get? [Text.bytesOf "out.zip"] = some (.file content) := by
    have hadmits : (∅ : FileSystem).admits [Text.bytesOf "out.zip"] (.file content) = true := by
      change (∅ : FileSystem).admits [Text.bytesOf "out.zip"] (.file .empty) = true
      decide +kernel
    rw [holding, get?_put hadmits, if_pos rfl]
  have hfits : (Text.bytesOf "out.zip").length ≤ addressLimit :=
    Nat.le_trans hshort (by decide)
  refine resolve_ok_iff.mpr ⟨hzero, hne, hfits, ?_⟩
  rw [Address.origin, Address.ofText, Addresses.segments_name hproper, habsolute]
  exact .file hshort hentry

theorem found_holding (content : Content) (text : String) :
    found (holding content) (output (offered text) options) = some (.file content) :=
  found_of_resolve (resolve_holding content) rfl

/-- A request without screens fails, and one that is no request is not even exported. -/
theorem failed_exports_empty_output_screenless :
    (∃ after, Unbuilt (offered "\x7b\x7d") options (holding .empty) after ∧
      found after (output (offered "\x7b\x7d") options) =
        found (holding .empty) (output (offered "\x7b\x7d") options)) ∧
    ∃ trail, (run (offered "[]") arguments).run (holding .empty) =
      (⟨1, .empty, Trail.message trail⟩, holding .empty) := by
  constructor
  · have hunbuilt : isUnbuilt (offered "\x7b\x7d") options (holding .empty) = true := by
      decide +kernel
    obtain ⟨after, h⟩ := exists_unbuilt hunbuilt
    have hall := failed_exports_empty_output (offered "\x7b\x7d") arguments options
      (holding .empty) read_arguments (by decide)
    exact ⟨after, h, (hall.2 after h).2.2.mpr (found_holding _ _)⟩
  · have hfails : ((readSetup (offered "[]") options).runOn (holding .empty)).1.isOk = false := by
      decide +kernel
    cases hr : ((readSetup (offered "[]") options).runOn (holding .empty)).1 with
    | ok setup => simp [hr, Except.isOk, Except.toBool] at hfails
    | error trail =>
      exact ⟨trail, (failed_exports_empty_output (offered "[]") arguments options (holding .empty)
        read_arguments (by decide)).1 trail hr⟩

/-- An archive of an earlier export is lost. -/
theorem earlier_archive_lost :
    ∃ after, Unbuilt (offered "\x7b\x7d") options (holding (.ofText "earlier")) after ∧
      (run (offered "\x7b\x7d") arguments).run (holding (.ofText "earlier")) =
        (⟨1, .empty, Trail.message [ExportFailure.message ⟨⟩]⟩, after) ∧
      found after (output (offered "\x7b\x7d") options) ≠
        found (holding (.ofText "earlier")) (output (offered "\x7b\x7d") options) := by
  have hunbuilt : isUnbuilt (offered "\x7b\x7d") options (holding (.ofText "earlier")) = true := by
    decide +kernel
  obtain ⟨after, h⟩ := exists_unbuilt hunbuilt
  obtain ⟨hrun, hempty⟩ := run_unbuilt read_arguments (by decide) h
  refine ⟨after, h, hrun, fun he => ?_⟩
  rw [hempty, found_holding] at he
  have hsame : Content.empty = .ofText "earlier" := by simpa using he
  have htexts : Content.empty.text? = some "" ∧
      (Content.ofText "earlier").text? = some "earlier" := by
    decide +kernel
  rw [← hsame, htexts.1] at htexts
  simp at htexts

end Screenwright.Proofs.Destination
