import Screenwright.Export.Assemble
import Screenwright.Export.Config
import Screenwright.Export.Package
import Screenwright.Export.Request
import Screenwright.Export.Workspace

namespace Screenwright.Export
open Files Screen

structure Exporter where
  config : Config
  skeleton : Skeleton
  base : Location
  /-- Where workspaces are made if the settings do not say it. -/
  temporary : Address
  draw : Nat := 0
  clock : Clock := .still

/-- A finished archive in the workspace it was made in. -/
structure ExportedArchive where
  workspace : Workspace
  fileName : String
  report : Report

/-- Somewhere to send an archive to. It may refuse to take bytes, or to settle at the end. -/
structure Sink where
  refusesWrite : Option String := none
  refusesFlush : Option String := none

def Sink.settle (sink : Sink) : Except ExportError Unit :=
  match sink.refusesWrite, sink.refusesFlush with
  | some reason, _ | none, some reason => .error (.transmission reason)
  | none, none => .ok ()

namespace ExportedArchive

/-- What lies where the archive was written, without taking it. -/
def peek (a : ExportedArchive) : FileAction ExportError Entry :=
  .mapError (.file a.workspace.archive) (entryAt a.workspace.archive)

/-- Reads the archive, which needs its workspace no longer. -/
def take (a : ExportedArchive) : FileAction ExportError Content :=
  a.workspace.lastUse (.mapError (.file a.workspace.archive) (contentAt a.workspace.archive))

/-- What a sink is offered, and how sending ends. A directory in place of the archive can
be opened but not read, so it counts as a failed transmission. -/
def send (a : ExportedArchive) (sink : Sink) :
    FileAction ExportError (Content × Except ExportError Unit) :=
  a.workspace.lastUse do
    match ← .mapError (.file a.workspace.archive) (entryAt a.workspace.archive) with
    | .file content => return (content, sink.settle)
    | _ => return (.empty, .error (.transmission FileError.isDirectory.message))

end ExportedArchive

namespace Exporter

def workRoot (x : Exporter) : Address :=
  match x.config.workRoot with
  | some root => .ofText x.base root
  | none => x.temporary

def readScreens (config : Config) (request : Request) :
    Except ExportError (Project × List SkippedScreen) :=
  match config.isolation with
  | .abortAll => (·, []) <$> (Project.parseAll request.entries).mapError .project
  | .skipInvalid => do
    let (project, skipped) ← (Project.parseLenient request.entries).mapError .project
    return (project, skipped.map .of)

/-- Assembles and packs a project in a workspace. -/
def build (x : Exporter) (project : Project) (skipped : List SkippedScreen) (w : Workspace) :
    FileAction ExportError ExportedArchive := do
  let deadline : Deadline := ⟨x.config.timeout, x.clock⟩
  let routes := project.routes
  let report ← assemble x.config.projectName deadline project routes x.skeleton w.project
  let entries ←
    package x.config.level (deadline.after (assemblyUnits project)) w.project w.archive
  return ⟨w, x.config.archiveName, { report with skipped, archiveEntries := entries }⟩

/-- Builds the archive of a request. -/
def run (x : Exporter) (request : Request) : FileAction ExportError ExportedArchive := do
  .ofExcept x.config.validate
  let (project, skipped) ← .ofExcept (readScreens x.config request)
  let workspace ← Workspace.create x.draw x.workRoot
  workspace.keepOnSuccess (x.build project skipped workspace)

/-- Builds the archive of a request; of a failure no details are told. -/
def attempt (x : Exporter) (request : Request) : FileAction ExportFailure ExportedArchive :=
  .mapError (fun _ => ⟨⟩) (x.run request)

/-- Builds the archive of a request and sends it to a sink; gives what the sink was offered
and how it ended. -/
def exportTo (x : Exporter) (request : Request) (sink : Sink) :
    StateM FileSystem (Option Content × Except ExportFailure Report) := do
  match ← (x.run request).run with
  | .error _ => return (none, .error ⟨⟩)
  | .ok archive =>
    match ← (archive.send sink).run with
    | .error _ => return (none, .error ⟨⟩)
    | .ok (content, .error _) => return (some content, .error ⟨⟩)
    | .ok (content, .ok ()) => return (some content, .ok archive.report)

end Exporter
end Screenwright.Export
