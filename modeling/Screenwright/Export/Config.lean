import Screenwright.Export.Error
import Screenwright.Json.Decode
import Screenwright.Json.Printer

namespace Screenwright.Export
open Json Decode

/-- What happens to a screen whose document is invalid: it fails the export, or is left
out and reported. -/
inductive Isolation where
  | abortAll
  | skipInvalid
deriving DecidableEq

structure Config where
  /-- The title of the app, from which its package gets its name. -/
  projectName : String := "flutter_project"
  /-- The name under which the archive is handed out. -/
  archiveName : String := "flutter_project.zip"
  /-- Where workspaces are made, unless it is where temporary files go. -/
  workRoot : Option String := none
  /-- From 1 to 9; entries are stored as they are at level 0. -/
  level : Int64 := 9
  isolation : Isolation := .abortAll
  /-- The time limit in seconds. -/
  timeout : Option UInt64 := none
deriving DecidableEq

namespace Isolation

def name : Isolation → String
  | .abortAll => "abort_all"
  | .skipInvalid => "skip_invalid"

def all : List Isolation := [.abortAll, .skipInvalid]

def ofName (name : String) (rest : List Char) : Except Fault Isolation :=
  match all.find? (·.name = name) with
  | some i => .ok i
  | none => .error (.here (.unknownVariant name (all.map Isolation.name)) rest)

/-- Reads the name that an object's first member must have. -/
def ofKey (start : List Char) : Except Fault Isolation :=
  match Outline.read (start.drop 1) with
  | .scalar (.string read) _ stop => do ofName (← read) stop
  | o => .error (mismatch "variant identifier" o)

def objectEnd (rest : List Char) : Except Fault Unit :=
  match skipBlank rest with
  | [] => .error (.atEnd .endOfObject)
  | c :: rest => if c = '\x7d' then .ok () else .error (.here .expectedValue (c :: rest))

/-- Reads the name, or an object with the name as its only key and `null` as its value. -/
def decode (depth : Nat) : Outline → Except Fault Isolation
  | .scalar (.string read) _ stop => do ofName (← read) stop
  | .object start members tail => do
    discard (enter depth start)
    let isolation ← ofKey start
    match members with
    | [] => Decode.objectEnd tail
    | (_, .scalar .null _ stop) :: _ => objectEnd stop
    | (_, o) :: _ => throw (mismatch "unit" o)
    return isolation
  | .broken start strict _ =>
    .error (if start.head?.any (· ≠ '"') then .past .expectedValue start else strict)
  | o => .error (.past .expectedValue o.start)

end Isolation

namespace Config

def field (decode : Nat → Outline → Except Fault α) (set : α → Config → Config)
    (depth : Nat) (o : Outline) (c : Config) : Except Refusal Config := do
  let a ← decode depth o
  return set a c

def record : Record Config where
  expected := "struct ExportConfig"
  blank := {}
  fields := [
    ("project_name", field (fun _ => string) fun a c => { c with projectName := a }),
    ("archive_name", field (fun _ => string) fun a c => { c with archiveName := a }),
    ("work_root", field (fun _ => nullable (text "path string")) fun a c =>
      { c with workRoot := a }),
    ("compression_level", field (fun _ => signedWord) fun a c => { c with level := .ofInt a }),
    ("isolation", field Isolation.decode fun a c => { c with isolation := a }),
    ("timeout_secs", field (fun _ => nullable unsignedWord) fun a c =>
      { c with timeout := a.map fun n => .ofNat n.toNat })]

def parse (source : String) : Except ExportError Config :=
  (whole record.decode source).mapError .invalidConfig

def toValue (c : Config) : Value :=
  .object [
    ("project_name", .string c.projectName),
    ("archive_name", .string c.archiveName),
    ("work_root", (c.workRoot.map Value.string).getD .null),
    ("compression_level", .number (.int c.level.toInt)),
    ("isolation", .string c.isolation.name),
    ("timeout_secs", (c.timeout.map fun n => Value.number (.int n.toNat)).getD .null)]

/-- An archive's name has to show something and to stay within its directory. -/
def isArchiveName (name : String) : Bool :=
  Text.trim name ≠ "" && name ≠ "." && name ≠ ".." &&
    name.toList.all fun c => c ≠ '/' && c ≠ '\\'

/-- Settings that can be read may still be out of range. -/
def validate (c : Config) : Except ExportError Unit :=
  if c.level.toInt < 0 ∨ 9 < c.level.toInt then .error (.invalidLevel c.level)
  else if isArchiveName c.archiveName then .ok ()
  else .error (.invalidArchiveName c.archiveName)

end Config
end Screenwright.Export
