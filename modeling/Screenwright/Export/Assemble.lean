import Screenwright.Export.Deadline
import Screenwright.Export.Report
import Screenwright.Export.Skeleton

namespace Screenwright.Export
open Files Screen Flutter

def writePage (deadline : Deadline) (routes : Routes) (dest : Address) (screen : Screen)
    (index : Nat) : FileAction ExportError ScreenEntry := do
  .ofExcept (deadline.check index)
  let page ← .ofExcept ((page routes screen (nameFor routes screen index)).mapError .source)
  let target := dest.joinText page.path
  .mapError (.file target) (putFile target (.ofText page.source))
  return ⟨page.label, page.name⟩

def renamedScreens (routes : Routes) : List RenamedScreen :=
  routes.renames.map fun r => ⟨r.label, r.wanted.fileName, r.renamed.fileName⟩

def assemblyUnits (project : Project) : Nat := project.screens.length + 1

/-- Assembles a project: the skeleton, a page for each screen and the entry point, which replaces
one that the skeleton may have. Nothing is said yet about an archive or about screens left out. -/
def assemble (title : String) (deadline : Deadline) (project : Project) (routes : Routes)
    (skeleton : Skeleton) (dest : Address) : FileAction ExportError Report := do
  skeleton.materialize dest
  let screens := dest.joinText screensDir
  .mapError (.file screens) (createDirectories screens)
  let entries ← project.screens.zipIdx.mapM fun (screen, index) =>
    writePage deadline routes dest screen index
  .ofExcept (deadline.check project.screens.length)
  let main ← .ofExcept ((entryPoint title routes).mapError .source)
  let target := dest.joinText entryPath
  .mapError (.file target) (putFile target (.ofText main))
  return ⟨entries, (routes.home?.map Name.className).getD "", renamedScreens routes, [], 0⟩

end Screenwright.Export
