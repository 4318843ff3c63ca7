import Screenwright.Export.Error
import Screenwright.Files.Action

namespace Screenwright.Export
open Files

inductive Skeleton where
  /-- The files that are made for a title. -/
  | builtin (title : String)
  /-- A copy of a directory. -/
  | directory (root : Address)

namespace Skeleton

def placeFile (dest : Address) (file : Flutter.SourceFile) : FileAction ExportError Unit := do
  let target := dest.joinText file.path
  let parent := target.parent?.getD dest
  .mapError (.file parent) (createDirectories parent)
  .mapError (.file target) (putFile target (.ofText file.content))

/-- Copies one entry of a directory; links are left out. -/
def copyEntry (root dest : Address) (entry : Location × Entry) : FileAction ExportError Unit := do
  let source := root.joinLocation entry.1
  let target := dest.joinLocation entry.1
  match entry.2 with
  | .directory => .mapError (.file target) (createDirectories target)
  | .file _ =>
    let parent := target.parent?.getD dest
    .mapError (.file parent) (createDirectories parent)
    .mapError (.file source) (copyFile source target)
  | .link _ => pure ()

/-- Puts a skeleton into a directory, which is made if it is missing. -/
def materialize (skeleton : Skeleton) (dest : Address) : FileAction ExportError Unit :=
  match skeleton with
  | .builtin title => do
    let files ← .ofExcept ((Flutter.skeleton title).mapError .source)
    files.forM (placeFile dest)
  | .directory root => do
    if !(← isDirectory root) then throw (.noTemplate root)
    .mapError (.file dest) (createDirectories dest)
    let entries ← .mapError (.listing root) (listTree root)
    entries.forM (copyEntry root dest)

end Skeleton
end Screenwright.Export
