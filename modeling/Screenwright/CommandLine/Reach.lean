import Screenwright.CommandLine.Run

namespace Screenwright.CommandLine
open Files Export

def Command.input? : Command → Option String
  | .archive o => o.input
  | .preview o => o.input

/-- A command without an input of its own reads the standard input. -/
def Command.readsInput (c : Command) : Bool := c.input?.isNone

/-- The files that a command is given by name; an output of one dash is no file. -/
def Command.named : Command → List String
  | .archive o => o.input.toList ++ o.config.toList ++ o.templateDir.toList ++
    (if o.output = "-" then [] else [o.output])
  | .preview o => o.input.toList

/-- The directory that a command reads with all that is in it. -/
def Command.tree? : Command → Option String
  | .archive o => o.templateDir
  | .preview _ => none

def workRoot? (s : Surroundings) (fs : FileSystem) : Command → Option String
  | .archive o =>
    match (readConfig s o).runOn fs with
    | (.ok config, _) => config.workRoot
    | (.error _, _) => none
  | .preview _ => none

end Screenwright.CommandLine
