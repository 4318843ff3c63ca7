import Screenwright.Text.Blank
import Screenwright.Text.Digits

namespace Screenwright.CommandLine

structure ArchiveOptions where
  input : Option String
  output : String
  config : Option String
  templateDir : Option String
  projectName : Option String
  skipInvalid : Bool
  timeout : Option UInt64
  report : Bool

structure PreviewOptions where
  input : Option String
  screen : Option String
  main : Bool
  projectName : String

inductive Command where
  | archive (options : ArchiveOptions)
  | preview (options : PreviewOptions)

/-- What is to be done instead of running a command. -/
inductive Refusal where
  | help
  | version
  | misuse

/-- What an option takes. -/
inductive Shape where
  | flag
  | text
  | path
  | count
deriving DecidableEq

structure OptionSpec where
  long : String
  short : Option Char
  shape : Shape

def archiveSpecs : List OptionSpec := [
  ⟨"input", some 'i', .path⟩, ⟨"output", some 'o', .path⟩, ⟨"config", some 'c', .path⟩,
  ⟨"template-dir", none, .path⟩, ⟨"project-name", none, .text⟩,
  ⟨"skip-invalid", none, .flag⟩, ⟨"timeout", none, .count⟩, ⟨"report", none, .flag⟩]

def previewSpecs : List OptionSpec := [
  ⟨"input", some 'i', .path⟩, ⟨"screen", some 's', .text⟩, ⟨"main", none, .flag⟩,
  ⟨"project-name", none, .text⟩]

/-- A number of 64 bits, perhaps behind a plus sign. -/
def count? (s : String) : Option UInt64 :=
  let ds := if s.toList.head? = some '+' then s.toList.drop 1 else s.toList
  if ds.isEmpty ∨ !ds.all Text.isDigit ∨ UInt64.size ≤ Text.decimalValue ds then none
  else some (.ofNat (Text.decimalValue ds))

def Shape.accepts : Shape → String → Bool
  | .flag, _ | .text, _ => true
  | .path, s => !s.isEmpty
  | .count, s => (count? s).isSome

/-- Options by their long names, with their values. -/
abbrev Given := List (String × String)

def Given.add (given : Given) (spec : OptionSpec) (value : String) : Except Refusal Given :=
  if given.any (·.1 = spec.long) ∨ !spec.shape.accepts value then .error .misuse
  else .ok (given ++ [(spec.long, value)])

def isValue (arg : String) : Bool := arg.toList.head? ≠ some '-' || arg = "-"

/-- An option as it is written: its specification and the value attached to its name. Without one
its value is the next argument. -/
inductive Written where
  | option (spec : OptionSpec) (attached : Option String)
  | stop

def readArgument (specs : List OptionSpec) (arg : String) : Except Refusal Written :=
  match arg.toList with
  | ['-', '-'] => .ok .stop
  | '-' :: '-' :: cs =>
    let name := String.ofList (cs.takeWhile (· ≠ '='))
    let attached := match cs.dropWhile (· ≠ '=') with
      | [] => none
      | _ :: value => some (String.ofList value)
    if name = "help" then .error (if attached.isNone then .help else .misuse)
    else match specs.find? (·.long = name) with
      | some spec => .ok (.option spec attached)
      | none => .error .misuse
  | '-' :: c :: cs =>
    if c = 'h' then .error .help
    else match specs.find? (·.short = some c) with
      | some spec =>
        let attached := match cs with
          | [] => none
          | '=' :: value => some (String.ofList value)
          | value => some (String.ofList value)
        .ok (.option spec attached)
      | none => .error .misuse
  | _ => .error .misuse

/-- Reads options from left to right, up to the first thing that is wrong. -/
def readOptions (specs : List OptionSpec) (given : Given) : List String → Except Refusal Given
  | [] => .ok given
  | arg :: rest =>
    match readArgument specs arg with
    | .error refusal => .error refusal
    | .ok .stop => if rest.isEmpty then .ok given else .error .misuse
    | .ok (.option spec attached) =>
      match spec.shape, attached, rest with
      | .flag, some _, _ => .error .misuse
      | .flag, none, rest => do readOptions specs (← given.add spec "") rest
      | _, some value, rest => do readOptions specs (← given.add spec value) rest
      | _, none, [] => .error .misuse
      | _, none, value :: rest =>
        if isValue value then do readOptions specs (← given.add spec value) rest
        else .error .misuse

namespace Given

def value? (given : Given) (name : String) : Option String :=
  (given.find? (·.1 = name)).map Prod.snd

def has (given : Given) (name : String) : Bool := given.any (·.1 = name)

/-- An archive goes to an output, which has to be given. -/
def toArchive (given : Given) : Except Refusal Command :=
  match given.value? "output" with
  | none => .error .misuse
  | some output => .ok (.archive {
      input := given.value? "input"
      output
      config := given.value? "config"
      templateDir := given.value? "template-dir"
      projectName := given.value? "project-name"
      skipInvalid := given.has "skip-invalid"
      timeout := (given.value? "timeout").bind count?
      report := given.has "report" })

/-- Either a screen or the entry point is shown, but not both. -/
def toPreview (given : Given) : Except Refusal Command :=
  if given.has "screen" && given.has "main" then .error .misuse
  else .ok (.preview {
    input := given.value? "input"
    screen := given.value? "screen"
    main := given.has "main"
    projectName := (given.value? "project-name").getD "flutter_project" })

end Given

/-- Asking for help on commands that exist. -/
def readHelp : List String → Refusal
  | [] => .help
  | [name] => if name ∈ ["export", "preview", "help"] then .help else .misuse
  | _ => .misuse

def readCommand : List String → Except Refusal Command
  | [] => .error .misuse
  | arg :: rest =>
    match arg with
    | "export" => readOptions archiveSpecs [] rest >>= Given.toArchive
    | "preview" => readOptions previewSpecs [] rest >>= Given.toPreview
    | "help" => .error (readHelp rest)
    | "--help" => .error .help
    | "--version" => .error .version
    | arg =>
      match arg.toList with
      | '-' :: 'h' :: _ => .error .help
      | '-' :: 'V' :: _ => .error .version
      | _ => .error .misuse

end Screenwright.CommandLine
