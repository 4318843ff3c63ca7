import Screenwright.CommandLine.Arguments
import Screenwright.Export.Exporter

namespace Screenwright.CommandLine
open Files Export Screen

/-- What a run finds around it. -/
structure Surroundings where
  /-- The directory where relative addresses start. -/
  base : Location
  /-- Where workspaces are made unless the settings say otherwise. -/
  temporary : Address
  input : ByteArray
  /-- What a workspace gets its name from. -/
  draw : Nat := 0
  clock : Clock := .still

structure Outcome where
  exit : Nat
  output : Content
  errors : String

/-- What went wrong, from the command's view down to the first cause. -/
abbrev Trail := List String

def Trail.message (trail : Trail) : String := "error: " ++ ": ".intercalate trail ++ "\n"

def exportTrail (e : ExportError) : Trail := e.message :: e.cause?.toList

def projectTrail (e : ProjectError) : Trail := exportTrail (.project e)

def nonText : Trail := ["reading stdin", FileError.notText.message]

/-- The request's text, from a file or else from the standard input. -/
def readInput (s : Surroundings) : Option String → FileAction Trail String
  | some path =>
    .mapError (fun e => ["reading " ++ path, e.message]) (readText (.ofText s.base path))
  | none =>
    match String.fromUTF8? s.input with
    | some text => return text
    | none => throw nonText

def readRequest (s : Surroundings) (path : Option String) : FileAction Trail Request := do
  let source ← readInput s path
  .ofExcept ((Request.parse source).mapError exportTrail)

def loadConfig (s : Surroundings) (path : String) : FileAction ExportError Config := do
  let address := Address.ofText s.base path
  let source ← .mapError (.file address) (readText address)
  .ofExcept (Config.parse source)

def configure (o : ArchiveOptions) (c : Config) : Config where
  projectName := o.projectName.getD c.projectName
  archiveName := c.archiveName
  workRoot := c.workRoot
  level := c.level
  isolation := if o.skipInvalid then .skipInvalid else c.isolation
  timeout := if o.timeout.isSome then o.timeout else c.timeout

def readConfig (s : Surroundings) (o : ArchiveOptions) : FileAction Trail Config := do
  let config ← match o.config with
    | some path =>
      .mapError (fun e => ("loading config " ++ path) :: exportTrail e) (loadConfig s path)
    | none => pure {}
  return configure o config

def exporter (s : Surroundings) (o : ArchiveOptions) (config : Config) : Exporter where
  config
  skeleton := match o.templateDir with
    | some dir => .directory (.ofText s.base dir)
    | none => .builtin config.projectName
  base := s.base
  temporary := s.temporary
  draw := s.draw
  clock := s.clock

/-- Exports to a sink that takes everything; gives what it took. -/
def exportContent (x : Exporter) (request : Request) : FileAction Trail (Content × Report) := do
  match ← (x.exportTo request {} : StateM FileSystem _) with
  | (some content, .ok report) => return (content, report)
  | (_, .error e) => throw [e.message]
  | (none, .ok report) => return (.empty, report)

/-- Builds an archive and writes it. A file for it is made before the export begins, so it
stays behind empty when the export fails. -/
def runArchive (s : Surroundings) (o : ArchiveOptions) : FileAction Trail Outcome := do
  let config ← readConfig s o
  let request ← readRequest s o.input
  let x := exporter s o config
  let printed (report : Report) := if o.report then report.toValue.pretty ++ "\n" else ""
  if o.output = "-" then
    let (content, report) ← exportContent x request
    return ⟨0, content, printed report⟩
  else
    let target := Address.ofText s.base o.output
    let creating (e : FileError) : Trail := ["creating " ++ o.output, e.message]
    .mapError creating (putFile target .empty)
    let (content, report) ← exportContent x request
    .mapError creating (putFile target content)
    return ⟨0, .empty, printed report⟩

def preview (request : Request) (o : PreviewOptions) : Except Trail String := do
  let project ← (Project.parseAll request.entries).mapError projectTrail
  let source (e : Flutter.SourceError) : Trail := [e.message]
  if o.main then (Flutter.entryPoint o.projectName project.routes).mapError source
  else
    let shown ← match o.screen with
      | some label =>
        match project.screens.findIdx? (·.label = label) with
        | some index => .ok index
        | none => .error ["no screen labelled '" ++ label ++ "'"]
      | none => .ok 0
    match project.screens[shown]?, project.routes.nameAt? shown with
    | some screen, some name =>
      let page ← (Flutter.page project.routes screen name).mapError source
      return page.source
    | _, _ => .error ["project has no screens"]

def runPreview (s : Surroundings) (o : PreviewOptions) : FileAction Trail Outcome := do
  let request ← readRequest s o.input
  let source ← .ofExcept (preview request o)
  return ⟨0, .ofText source, ""⟩

def runCommand (s : Surroundings) : Command → FileAction Trail Outcome
  | .archive options => runArchive s options
  | .preview options => runPreview s options

def versionText : String := "fluttergen 0.1.0\n"

def helpText : String := "Generate Flutter projects from visual design documents

Usage: fluttergen <COMMAND>

Commands:
  export   Assemble the project and write it as a zip archive
  preview  Print generated Dart source without writing anything
  help     Print this message or the help of the given subcommand(s)
"

def Refusal.outcome : Refusal → Outcome
  | .help => ⟨0, .ofText helpText, ""⟩
  | .version => ⟨0, .ofText versionText, ""⟩
  | .misuse => ⟨2, .empty, helpText⟩

def run (s : Surroundings) (args : List String) : StateM FileSystem Outcome := do
  match readCommand args with
  | .error refusal => return refusal.outcome
  | .ok command =>
    match ← (runCommand s command).run with
    | .ok outcome => return outcome
    | .error trail => return ⟨1, .empty, trail.message⟩

end Screenwright.CommandLine
