import Screenwright.Text.Blank

namespace Screenwright.Style

inductive MainAxis where
  | start | center | finish | spaceBetween | spaceAround | spaceEvenly
deriving DecidableEq

/-- Surrounding blanks do not count, and every unknown keyword gives the first choice; the same
holds of the properties below. -/
def MainAxis.of (justify : Option String) : MainAxis :=
  match justify.map Text.trim with
  | some "center" => .center
  | some "flex-end" | some "end" => .finish
  | some "space-between" => .spaceBetween
  | some "space-around" => .spaceAround
  | some "space-evenly" => .spaceEvenly
  | _ => .start

inductive CrossAxis where
  | start | center | finish | stretch
deriving DecidableEq

def CrossAxis.of (align : Option String) : CrossAxis :=
  match align.map Text.trim with
  | some "center" => .center
  | some "flex-end" | some "end" => .finish
  | some "stretch" => .stretch
  | _ => .start

inductive TextAlign where
  | left | center | right | justify
deriving DecidableEq

def TextAlign.of (align : Option String) : TextAlign :=
  match align.map Text.trim with
  | some "center" => .center
  | some "right" => .right
  | some "justify" => .justify
  | _ => .left

inductive FontWeight where
  | normal | bold
deriving DecidableEq

def FontWeight.of (weight : Option String) : FontWeight :=
  match weight.map Text.trim with
  | some "bold" => .bold
  | _ => .normal

inductive TextDecoration where
  | none | underline | lineThrough
deriving DecidableEq

def TextDecoration.of (decoration : Option String) : TextDecoration :=
  match decoration.map Text.trim with
  | some "underline" => .underline
  | some "line-through" => .lineThrough
  | _ => .none

end Screenwright.Style
