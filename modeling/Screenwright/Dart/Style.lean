import Screenwright.Dart.Expr
import Screenwright.Style.Color
import Screenwright.Style.Insets
import Screenwright.Style.Keyword
import Screenwright.Style.Length

namespace Screenwright.Style
open Dart Expr

def ColorValue.toDart : ColorValue → Expr
  | .transparent => .word "Colors.transparent"
  | .solid c => .call "Color" [plain (.word ("0x" ++ String.ofList (Text.hexFixed 8 c.argb)))]
  | .fallback => .word "Colors.black"

def Insets.toDart : Insets → Expr
  | .uniform all => .call "EdgeInsets.all" [plain (ofInt all)]
  | .symmetric vertical horizontal =>
    .call "EdgeInsets.symmetric"
      [named "vertical" (ofInt vertical), named "horizontal" (ofInt horizontal)]
  | .each left top right bottom =>
    .call "EdgeInsets.fromLTRB"
      [plain (ofInt left), plain (ofInt top), plain (ofInt right), plain (ofInt bottom)]

def Dimension.toDart : Dimension → Expr
  | .unconstrained => .word "null"
  | .fill => .word "double.infinity"
  | .fixed x => .word x.plain

def MainAxis.name : MainAxis → String
  | .start => "start"
  | .center => "center"
  | .finish => "end"
  | .spaceBetween => "spaceBetween"
  | .spaceAround => "spaceAround"
  | .spaceEvenly => "spaceEvenly"

def MainAxis.toDart (a : MainAxis) : Expr := .word ("MainAxisAlignment." ++ a.name)

def CrossAxis.name : CrossAxis → String
  | .start => "start"
  | .center => "center"
  | .finish => "end"
  | .stretch => "stretch"

def CrossAxis.toDart (a : CrossAxis) : Expr := .word ("CrossAxisAlignment." ++ a.name)

def TextAlign.name : TextAlign → String
  | .left => "left"
  | .center => "center"
  | .right => "right"
  | .justify => "justify"

def TextAlign.toDart (a : TextAlign) : Expr := .word ("TextAlign." ++ a.name)

def FontWeight.name : FontWeight → String
  | .normal => "normal"
  | .bold => "bold"

def FontWeight.toDart (w : FontWeight) : Expr := .word ("FontWeight." ++ w.name)

def TextDecoration.name : TextDecoration → String
  | .none => "none"
  | .underline => "underline"
  | .lineThrough => "lineThrough"

def TextDecoration.toDart (d : TextDecoration) : Expr := .word ("TextDecoration." ++ d.name)

end Screenwright.Style
