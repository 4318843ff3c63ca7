import Screenwright.Archive.Zip
import Screenwright.CommandLine.Reach

namespace Screenwright.Disk
open Files CommandLine

def path (loc : Location) : String := "/" ++ "/".intercalate (loc.map Text.shown)

/-- The entry at a location, if there is one that can be read. A link leads to a place
without links; one that leads nowhere counts as no entry. -/
def entryAt? (loc : Location) : IO (Option Entry) := do
  let place := (← IO.currentDir) / path loc
  let read : IO Entry := do
    match (← place.symlinkMetadata).type with
    | .dir => return .directory
    | .symlink => return .link (Text.bytesOf (← IO.FS.realPath place).toString)
    | _ => return .file (.bytes (← IO.FS.readBinFile place))
  return (← read.toBaseIO).toOption

partial def readAlong (fs : FileSystem) (here : Location) : List Segment → IO FileSystem
  | [] => return fs
  | .here :: rest => readAlong fs here rest
  | .up :: rest => readAlong fs here.dropLast rest
  | .name n :: rest => do
    let loc := here ++ [n]
    match ← entryAt? loc with
    | none => return fs
    | some .directory => readAlong (fs.put loc .directory) loc rest
    | some (.file content) => return fs.put loc (.file content)
    | some (.link target) =>
      readAlong (fs.put loc (.link target)) [] (segments target ++ rest)

def readAddress (fs : FileSystem) (a : Address) : IO FileSystem :=
  readAlong fs a.origin (segments a.written)

partial def readBelow (fs : FileSystem) (loc : Location) : IO FileSystem := do
  let place := (← IO.currentDir) / path loc
  (← place.readDir).foldlM (fun fs found => do
    let inner := loc ++ [FileName.ofText found.fileName]
    match ← entryAt? inner with
    | none => return fs
    | some .directory => readBelow (fs.put inner .directory) inner
    | some e => return fs.put inner e) fs

def readReach (s : Surroundings) (c : Command) : IO FileSystem := do
  let named := c.named.map (Address.ofText s.base)
  let fs ← readAlong ∅ [] (s.base.map .name)
  let fs ← (s.temporary :: named).foldlM readAddress fs
  let fs ← ((workRoot? s fs c).toList.map (Address.ofText s.base)).foldlM readAddress fs
  match (c.tree?.map (Address.ofText s.base)).map (resolve fs true) with
  | some (.ok ⟨loc, some .directory⟩) => readBelow fs loc
  | _ => return fs

/-- Whether a file has to be written, since it is new or not what it was. -/
def isChanged (before : FileSystem) (loc : Location) (bytes : ByteArray) : Bool :=
  match before.get? loc with
  | some (.file content) => content.toBytes != bytes
  | _ => true

/-- Writes what is new or changed; a directory comes before what is in it. -/
def writeChanges (before after : FileSystem) : IO Unit :=
  after.entries.forM fun (loc, e) => do
    match e with
    | .directory => if !before.isDirectory loc then IO.FS.createDir (path loc)
    | .file content =>
      if isChanged before loc content.toBytes then
        IO.FS.writeBinFile (path loc) content.toBytes
    | .link _ => pure ()

end Screenwright.Disk
