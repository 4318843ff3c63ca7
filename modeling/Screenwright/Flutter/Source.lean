import Screenwright.Screen.Project
import Screenwright.Template.Builtin
import Screenwright.Widget.Compile

namespace Screenwright.Flutter
open Screen Template

inductive SourceError where
  | template (error : RenderError)
  | noScreens

def SourceError.message : SourceError → String
  | .template error => error.message
  | .noScreens => "Cannot generate an entry point without screens"

structure Page where
  label : String
  name : Name
  source : String

def screensDir : String := "lib/screens"

def entryPath : String := "lib/main.dart"

def Page.path (p : Page) : String := screensDir ++ "/" ++ p.name.fileName

structure SourceFile where
  path : String
  content : String

def renderSource (template : String) (data : List (String × String)) :
    Except SourceError String :=
  (builtin.render template (.object (data.map fun e => (e.1, .string e.2)))).mapError .template

/-- The widget that a screen shows; without a root it is empty. -/
def body (routes : Routes) (tree : Design.DesignTree) : String :=
  match Widget.compile routes tree Design.DesignTree.rootId with
  | some e => e.render bodyColumn
  | none => Widget.nothing.render bodyColumn

def page (routes : Routes) (screen : Screen) (name : Name) : Except SourceError Page := do
  let source ← renderSource "screen"
    [("class_name", name.className), ("body", body routes screen.tree)]
  return ⟨screen.label, name, source⟩

/-- The name of the screen at an index; beyond the routes it is the name of its label. -/
def nameFor (routes : Routes) (screen : Screen) (index : Nat) : Name :=
  (routes.nameAt? index).getD (.ofLabel screen.label)

def pages (routes : Routes) (project : Project) : Except SourceError (List Page) :=
  project.screens.zipIdx.mapM fun (screen, index) =>
    page routes screen (nameFor routes screen index)

def importLine (name : Name) : String := "import 'screens/" ++ name.fileName ++ "';"

def routeLine (name : Name) : String :=
  Dart.Expr.pad 8 ++ Dart.quote name.routePath ++ ": (context) => const " ++ name.className ++
    "(),"

/-- The entry point: imports, the home screen and a route for every screen. -/
def entryPoint (title : String) (routes : Routes) : Except SourceError String :=
  match routes.home? with
  | none => .error .noScreens
  | some home =>
    let names := routes.entries.map Route.name
    renderSource "main"
      [("title", title), ("imports", "\n".intercalate (names.map importLine)),
       ("home_class", home.className), ("routes", "\n".intercalate (names.map routeLine))]

/-- The files of an empty project. -/
def skeleton (title : String) : Except SourceError (List SourceFile) :=
  skeletonFiles.mapM fun (path, _) => do
    let content ← renderSource path [("title", title)]
    return ⟨path, content⟩

end Screenwright.Flutter
