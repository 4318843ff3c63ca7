import Screenwright.Export.Deadline
import Screenwright.Files.Action

namespace Screenwright.Export
open Files

/-- The name of an entry: the names from the packed directory on, with slashes between. -/
def entryName (loc : Location) : String := "/".intercalate (loc.map Text.shown)

def methodAt (level : Int64) : Archive.Method := if level = 0 then .stored else .deflated

def isLevel (level : Int64) : Bool := 0 ≤ level.toInt && level.toInt ≤ 9

def archiveEntry (level : Int64) (loc : Location) :
    Entry → Except ExportError (Option (Archive.Entry Content))
  | .directory => .ok (some ⟨entryName loc ++ "/", .stored, none⟩)
  | .file content =>
    if isLevel level then .ok (some ⟨entryName loc, methodAt level, some content⟩)
    else .error .unsupportedLevel
  | .link _ => .ok none

/-- Adds an entry, unless the archive has one of its name. -/
def addEntry (archive : Archive) (e : Archive.Entry Content) : Except ExportError Archive :=
  if archive.any (·.name = e.name) then .error (.duplicateEntry e.name)
  else .ok (archive ++ [e])

/-- Packs what a walk has met; `unit` counts the entries it has been through. -/
def packEntries (level : Int64) (deadline : Deadline) (target : Address) (unit : Nat)
    (archive : Archive) : List (Location × Entry) → FileAction ExportError Archive
  | [] => return archive
  | (loc, e) :: entries => do
    .ofExcept (deadline.check unit)
    match ← .ofExcept (archiveEntry level loc e) with
    | none => packEntries level deadline target (unit + 1) archive entries
    | some entry =>
      let archive ← .ofExcept (addEntry archive entry)
      .mapError (.file target) (putFile target (.archive archive))
      packEntries level deadline target (unit + 1) archive entries

/-- Packs a directory without its links; gives the number of entries. The archive is a file from the
beginning and holds, at every moment, what has been packed so far. -/
def package (level : Int64) (deadline : Deadline) (root target : Address) :
    FileAction ExportError Nat := do
  .mapError (.file target) (putFile target (.archive []))
  match (listTree root).runOn (← get) with
  | (.error cause, _) =>
    .ofExcept (deadline.check 0)
    throw (.listing root cause)
  | (.ok entries, _) =>
    let archive ← packEntries level deadline target 0 [] entries
    return archive.length

/-- The level of an archive that nobody chose one for. -/
def defaultLevel : Int64 := 9

end Screenwright.Export
