import Screenwright.Screen.Name

namespace Screenwright.Screen

structure Route where
  label : String
  name : Name
deriving DecidableEq

/-- Routes in the order of the screens. -/
structure Routes where
  entries : List Route := []

/-- A screen that did not keep the name of its label. -/
structure Rename where
  label : String
  wanted : Name
  renamed : Name

namespace Routes

/-- Whether a name's file or class is among those in use. -/
def clashes (files classes : List String) (n : Name) : Bool :=
  n.fileName ∈ files || n.className ∈ classes

/-- The candidates for a screen's name: the name of its label, and that name with as many
numbers as there are names in use. -/
def candidates (wanted : Name) (count : Nat) : List Name :=
  wanted :: (List.range count).map fun k => wanted.withSuffix (k + 2)

/-- The first candidate that does not clash with the names in use. -/
def freeName (used : List Name) (wanted : Name) : Name :=
  let files := used.map Name.fileName
  let classes := used.map Name.className
  ((candidates wanted used.length).find? fun n => !clashes files classes n).getD wanted

def add (r : Routes) (label : String) : Routes :=
  ⟨r.entries ++ [⟨label, freeName (r.entries.map Route.name) (.ofLabel label)⟩]⟩

def resolve (labels : List String) : Routes := labels.foldl add ⟨[]⟩

/-- The path of the first screen with a label. -/
def pathOf? (r : Routes) (label : String) : Option String :=
  (r.entries.find? (·.label = label)).map (·.name.routePath)

def nameAt? (r : Routes) (index : Nat) : Option Name := r.entries[index]?.map Route.name

/-- The name of the screen that an app opens on. -/
def home? (r : Routes) : Option Name := r.nameAt? 0

def size (r : Routes) : Nat := r.entries.length

def isEmpty (r : Routes) : Bool := r.entries.isEmpty

def renames (r : Routes) : List Rename :=
  r.entries.filterMap fun e =>
    let wanted := Name.ofLabel e.label
    if e.name = wanted then none else some ⟨e.label, wanted, e.name⟩

end Routes
end Screenwright.Screen
