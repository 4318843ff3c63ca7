import Screenwright.Files.Resolve

namespace Screenwright.Files

/-- A computation on a file system that may fail with an error. If it does, it keeps what it has
done up to then. -/
abbrev FileAction (ε α : Type) := ExceptT ε (StateM FileSystem) α

namespace FileAction

def runOn (act : FileAction ε α) (fs : FileSystem) : Except ε α × FileSystem := act fs

def ofExcept (r : Except ε α) : FileAction ε α := fun fs => (r, fs)

def mapError (f : ε → δ) (act : FileAction ε α) : FileAction δ α := fun fs =>
  let (r, fs) := act.runOn fs
  (r.mapError f, fs)

def thenAlways (act : FileAction ε α) (after : FileAction Empty Unit) : FileAction ε α :=
  fun fs =>
    let (r, fs) := act.runOn fs
    (r, (after.runOn fs).2)

end FileAction

def look (follow : Bool) (a : Address) : FileAction FileError Place := do
  .ofExcept (resolve (← get) follow a)

/-- Puts an entry where there is none, or in place of one that is no directory. -/
def putEntry (loc : Location) (e : Entry) : FileAction FileError Unit := fun fs =>
  if fs.lacksRoom loc e then (.error .noSpace, fs)
  else if fs.admits loc e then (.ok (), fs.put loc e)
  else (.error .notFound, fs)

/-- Puts a file with a content. It is empty first, and stays so if there is no room for the
content. -/
def fillFile (loc : Location) (content : Content) : FileAction FileError Unit := do
  putEntry loc (.file .empty)
  putEntry loc (.file content)

def isDirectory (a : Address) : FileAction ε Bool := do
  match resolve (← get) true a with
  | .ok place => return place.entry.any Entry.isDirectory
  | .error _ => return false

/-- Whether a file can be at an address, which a final slash denies. -/
def checkFile (a : Address) (content : Content) : FileAction FileError Content :=
  if a.endsInSlash then throw .notDirectory else return content

def entryAt (a : Address) : FileAction FileError Entry := do
  match (← look true a).entry with
  | none => throw .notFound
  | some .directory => return .directory
  | some (.link _) => throw .tooManyLinks
  | some (.file content) => .file <$> checkFile a content

def contentAt (a : Address) : FileAction FileError Content := do
  match ← entryAt a with
  | .file content => return content
  | _ => throw .isDirectory

def readText (a : Address) : FileAction FileError String := do
  match (← contentAt a).text? with
  | some s => return s
  | none => throw .notText

def putFile (a : Address) (content : Content) : FileAction FileError Unit := do
  let place ← look true a
  match place.entry with
  | some .directory => throw .isDirectory
  | some _ => checkFile a content >>= fillFile place.location
  | none => if a.endsInSlash then throw .isDirectory else fillFile place.location content

/-- Copies a file. The copy is emptied before the file is read, so that a file copied onto
itself loses its content. -/
def copyFile (source target : Address) : FileAction FileError Unit := do
  discard (contentAt source)
  putFile target .empty
  let content ← contentAt source
  putFile target content

def createDirectory (a : Address) : FileAction FileError Unit := do
  let place ← look false a
  match place.entry with
  | some _ => throw .exists
  | none => putEntry place.location .directory

/-- The address and all above it, from the nearest on, but not the root or the base. -/
def lineage : Nat → Address → List Address
  | 0, _ => []
  | n + 1, a =>
    match a.parent? with
    | none => []
    | some parent => a :: lineage n parent

def ensureDirectory (a : Address) : FileAction FileError Unit := fun fs =>
  match (createDirectory a).runOn fs with
  | (.ok (), fs) => (.ok (), fs)
  | (.error e, fs) =>
    match (isDirectory (ε := FileError) a).runOn fs with
    | (.ok true, fs) => (.ok (), fs)
    | (_, fs) => (.error e, fs)

/-- Makes the directories of a lineage, the last one first, as far as they are missing. -/
def createLineage : List Address → FileAction FileError Unit
  | [] => pure ()
  | a :: above => fun fs =>
    match (createDirectory a).runOn fs with
    | (.error .notFound, fs) => (createLineage above *> ensureDirectory a).runOn fs
    | (.error _, fs) => (ensureDirectory a).runOn fs
    | (.ok (), fs) => (.ok (), fs)

/-- Makes a directory and all above it, as far as they are missing. -/
def createDirectories (a : Address) : FileAction FileError Unit :=
  createLineage (lineage a.written.length a)

def removeDirectory (a : Address) : FileAction FileError Unit := do
  let place ← look false a
  match place.entry with
  | none => throw .notFound
  | some .directory => modify (·.removeTree place.location)
  | some _ => throw .notDirectory

/-- What lies below a directory, in the order of a walk; links are not followed, except for
the address itself. All of it is listed before the first entry is worked on, whereas the walk
behind it lists a directory when it gets there. The two differ where the work adds entries to what
is walked, as when a template directory contains the place that it is copied to. -/
def listTree (a : Address) : FileAction FileError (List (Location × Entry)) := do
  let place ← look true a
  match place.entry with
  | none => throw .notFound
  | some _ => return (← get).below place.location

end Screenwright.Files
