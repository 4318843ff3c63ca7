import Screenwright.Text.Utf8

namespace Screenwright.Files

/-- The name of a file: bytes without a slash, and not always text. -/
abbrev FileName := List UInt8

/-- The names from the root to a file; the root itself has none. -/
abbrev Location := List FileName

def FileName.ofText (s : String) : FileName := Text.bytesOf s

def slash : UInt8 := 47

def dot : UInt8 := 46

/-- Whether bytes can be a file's name: there are some, none of them is a slash or zero, and
they are not the dots that stand for a directory and the one above it. -/
def FileName.isProper (n : FileName) : Bool :=
  n ≠ [] && n ≠ [dot] && n ≠ [dot, dot] && n.all fun b => b ≠ slash && b ≠ 0

inductive Segment where
  | here
  | up
  | name (n : FileName)

def Segment.ofBytes (bytes : List UInt8) : Segment :=
  if bytes = [dot] then .here else if bytes = [dot, dot] then .up else .name bytes

def splitSlashes : List UInt8 → List (List UInt8)
  | [] => [[]]
  | b :: bs =>
    if b = slash then [] :: splitSlashes bs
    else match splitSlashes bs with
      | [] => [[b]]
      | w :: ws => (b :: w) :: ws

/-- The steps of a written address; repeated slashes count once. -/
def segments (written : List UInt8) : List Segment :=
  ((splitSlashes written).filter (!·.isEmpty)).map .ofBytes

def isAbsolute (written : List UInt8) : Bool := written.head? = some slash

/-- A text to be read from a directory, unless it starts at the root, with the dots and slashes it
was written with. -/
structure Address where
  base : Location
  written : List UInt8

namespace Address

def ofText (base : Location) (s : String) : Address := ⟨base, Text.bytesOf s⟩

/-- Goes on from an address; an absolute continuation replaces it. -/
def join (a : Address) (more : List UInt8) : Address :=
  if isAbsolute more ∨ a.written = [] then { a with written := more }
  else if a.written.getLast? = some slash then { a with written := a.written ++ more }
  else { a with written := a.written ++ slash :: more }

def joinText (a : Address) (s : String) : Address := a.join (Text.bytesOf s)

def joinLocation (a : Address) (names : Location) : Address := names.foldl join a

def origin (a : Address) : Location := if isAbsolute a.written then [] else a.base

def endsInSlash (a : Address) : Bool := a.written.getLast? = some slash

/-- Cuts off final slashes, and final dots behind a slash. -/
def trimEnd : List UInt8 → List UInt8
  | [] => []
  | b :: reversed =>
    if b = slash then trimEnd reversed
    else if b = dot ∧ reversed.head? = some slash then trimEnd reversed
    else b :: reversed

/-- The address without its last step, if it has one. -/
def parent? (a : Address) : Option Address :=
  match trimEnd a.written.reverse with
  | [] => none
  | reversed =>
    let rest := reversed.dropWhile (· ≠ slash)
    let kept := (trimEnd rest).reverse
    some { a with written := if kept.isEmpty ∧ isAbsolute a.written then [slash] else kept }

def text (a : Address) : String := Text.shown a.written

end Address
end Screenwright.Files
