import Screenwright.Design.Props

namespace Screenwright.Design

/-- The kinds of elements that have a widget; every other tag is kept as it is. -/
inductive Kind where
  | container | text | button | input | checkbox | image | table
  | unknown (tag : String)
deriving DecidableEq

/-- Tags are case sensitive. -/
def Kind.ofTag : String → Kind
  | "Container" => .container
  | "Text" => .text
  | "Button" => .button
  | "Input" => .input
  | "Checkbox" => .checkbox
  | "Image" => .image
  | "Table" => .table
  | tag => .unknown tag

/-- An element. Its children are named by their ids, in the order in which they show; the
parent, the displayed name and the canvas flag bear no meaning here. -/
structure Node where
  id : String
  kind : Kind
  isCanvas : Bool := false
  props : Props := ∅
  children : List String := []
  parent : Option String := none
  displayName : Option String := none

end Screenwright.Design
