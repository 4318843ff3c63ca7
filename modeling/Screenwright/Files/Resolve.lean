import Screenwright.Files.FileSystem

namespace Screenwright.Files

inductive FileError where
  | notFound
  | exists
  | notDirectory
  | isDirectory
  | noSpace
  | nameTooLong
  | tooManyLinks
  | holdsNul
  | notText
deriving DecidableEq

def FileError.message : FileError → String
  | .notFound => "No such file or directory (os error 2)"
  | .exists => "File exists (os error 17)"
  | .notDirectory => "Not a directory (os error 20)"
  | .isDirectory => "Is a directory (os error 21)"
  | .noSpace => "No space left on device (os error 28)"
  | .nameTooLong => "File name too long (os error 36)"
  | .tooManyLinks => "Too many levels of symbolic links (os error 40)"
  | .holdsNul => "file name contained an unexpected NUL byte"
  | .notText => "stream did not contain valid UTF-8"

/-- A location in a directory that exists, and what lies there, if anything does. -/
structure Place where
  location : Location
  entry : Option Entry

/-- How many bytes a name may have. -/
def nameLimit : Nat := 255

/-- How many bytes an address may have. -/
def addressLimit : Nat := 4095

/-- How many links one address may lead through. -/
def linkLimit : Nat := 40

/-- Takes steps from a directory. A link at the end is followed on demand, every other one in any
case; `through` goes on from there. -/
def walkTo (fs : FileSystem) (follow : Bool)
    (through : Location → List Segment → Except FileError Place) (here : Location) :
    List Segment → Except FileError Place
  | [] => .ok ⟨here, some .directory⟩
  | .here :: rest => walkTo fs follow through here rest
  | .up :: rest => walkTo fs follow through here.dropLast rest
  | .name n :: rest =>
    if nameLimit < n.length then .error .nameTooLong
    else
      match fs.get? (here ++ [n]) with
      | none => if rest.isEmpty then .ok ⟨here ++ [n], none⟩ else .error .notFound
      | some .directory => walkTo fs follow through (here ++ [n]) rest
      | some (.file content) =>
        if rest.isEmpty then .ok ⟨here ++ [n], some (.file content)⟩ else .error .notDirectory
      | some (.link target) =>
        if rest.isEmpty && !follow then .ok ⟨here ++ [n], some (.link target)⟩
        else through (if isAbsolute target then [] else here) (segments target ++ rest)

def walk (fs : FileSystem) (follow : Bool) :
    Nat → Location → List Segment → Except FileError Place
  | 0 => walkTo fs follow fun _ _ => .error .tooManyLinks
  | links + 1 => walkTo fs follow (walk fs follow links)

def resolve (fs : FileSystem) (follow : Bool) (a : Address) : Except FileError Place :=
  if 0 ∈ a.written then .error .holdsNul
  else if a.written = [] then .error .notFound
  else if addressLimit < a.written.length then .error .nameTooLong
  else walk fs follow linkLimit a.origin (segments a.written)

end Screenwright.Files
