import Screenwright.Design.Document
import Screenwright.Screen.Routes

namespace Screenwright
open Design

structure Screen where
  label : String
  tree : DesignTree

namespace Screen

/-- Screens in order, of which the first is the home screen. -/
structure Project where
  screens : List Screen

inductive ProjectError where
  | invalidDocument (label : String) (cause : Json.Error)
  | noScreens

def ProjectError.message : ProjectError → String
  | .invalidDocument label cause =>
    "Screen '" ++ label ++ "' is not a valid design document: " ++ cause.message
  | .noScreens => "Project has no screens"

def ProjectError.label? : ProjectError → Option String
  | .invalidDocument label _ => some label
  | .noScreens => none

/-- A screen's label and its document. -/
abbrev Source := String × String

def parse (source : Source) : Except ProjectError Screen :=
  match DesignTree.parse source.2 with
  | .ok tree => .ok ⟨source.1, tree⟩
  | .error cause => .error (.invalidDocument source.1 cause)

namespace Project

def ofScreens (screens : List Screen) : Except ProjectError Project :=
  if screens.isEmpty then .error .noScreens else .ok ⟨screens⟩

/-- Reads every screen; the first invalid document fails. -/
def parseAll (sources : List Source) : Except ProjectError Project :=
  sources.mapM Screen.parse >>= ofScreens

def readable (sources : List Source) : List Screen :=
  sources.filterMap fun s => (Screen.parse s).toOption

def unreadable (sources : List Source) : List ProjectError :=
  sources.filterMap fun s =>
    match Screen.parse s with
    | .ok _ => none
    | .error e => some e

/-- Reads every screen and sets invalid documents aside. -/
def parseLenient (sources : List Source) : Except ProjectError (Project × List ProjectError) := do
  let project ← ofScreens (readable sources)
  return (project, unreadable sources)

def labels (p : Project) : List String := p.screens.map Screen.label

def routes (p : Project) : Routes := .resolve p.labels

end Project

end Screen
end Screenwright
