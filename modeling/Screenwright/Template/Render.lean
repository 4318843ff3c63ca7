import Screenwright.Catalog
import Screenwright.Dart.Literal
import Screenwright.Json.Printer
import Screenwright.Pub.PackageName
import Screenwright.Template.Piece
import Screenwright.Text.Visible

namespace Screenwright.Template

inductive RenderError where
  | noTemplate (name : String)
  | noVariable (template : String) (place : Nat × Nat) (name : String)
  | noHelper (template : String) (place : Nat × Nat) (name : String)

def placedMessage (template : String) (place : Nat × Nat) (text : String) : String :=
  "Error rendering \"" ++ template ++ "\" line " ++ toString place.1 ++ ", col " ++
    toString place.2 ++ ": " ++ text

def RenderError.message (e : RenderError) : String :=
  "Template error: " ++ match e with
  | .noTemplate name => "Template not found " ++ name
  | .noVariable template place name =>
    placedMessage template place
      ("Failed to access variable in strict mode Some(" ++ Visible.quote name ++ ")")
  | .noHelper template place name => placedMessage template place ("Helper not found " ++ name)

def placeAfter (before : String) : Nat × Nat :=
  before.toList.foldl
    (fun place c => if c = '\n' then (place.1 + 1, 1) else (place.1, place.2 + 1)) (1, 1)

mutual

def display : Json.Value → String
  | .null => ""
  | .bool b => if b then "true" else "false"
  | .number n => n.text
  | .string s => s
  | .array items => "[" ++ ", ".intercalate (displayItems items) ++ "]"
  | .object _ => "[object]"

def displayItems : List Json.Value → List String
  | [] => []
  | v :: vs => display v :: displayItems vs

end

def Helper.apply : Helper → String → String
  | .dartString, s => Dart.quote s
  | .packageName, s => Pub.packageName s

/-- The text of an argument; what is missing or no text counts as empty. -/
def argumentText (data : Json.Value) : Option Argument → String
  | some (.literal text) => text
  | some (.named name) =>
    match data.member? name with
    | some (.string s) => s
    | _ => ""
  | none => ""

/-- The text of one piece, at a place in a template. What a variable holds is inserted as it is and
not looked at again; a variable without a value is a fault, except as an argument of a helper. -/
def renderPiece (template : String) (place : Nat × Nat) (data : Json.Value) :
    Content → Except RenderError String
  | .plain text => .ok text
  | .field name =>
    match data.member? name with
    | some v => .ok (display v)
    | none => .error (.noVariable template place name)
  | .call helper args =>
    match Helper.ofName? helper with
    | some h => .ok (h.apply (argumentText data args.head?))
    | none => .error (.noHelper template place helper)

/-- The text of pieces behind what has been written before them. -/
def renderPieces (template : String) (data : Json.Value) (before : String) :
    List Piece → Except RenderError String
  | [] => .ok ""
  | p :: ps => do
    let text ← renderPiece template (placeAfter before) data p.content
    let rest ← renderPieces template data (before ++ p.written) ps
    return text ++ rest

abbrev Library := Catalog (List Piece)

namespace Library

/-- Adds a template, unless its text makes none. -/
def register (l : Library) (name source : String) : Option Library :=
  (parse source).map (l.insert name)

def render (l : Library) (name : String) (data : Json.Value) : Except RenderError String :=
  match l.get? name with
  | some pieces => renderPieces name data "" pieces
  | none => .error (.noTemplate name)

end Library
end Screenwright.Template
