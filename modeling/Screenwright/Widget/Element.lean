import Screenwright.Dart.Style
import Screenwright.Design.Tree
import Screenwright.Screen.Routes

namespace Screenwright.Widget
open Dart Expr Design Style Screen

def nothing : Expr := .call "SizedBox.shrink" []

def number (x : Binary64) : Expr := .word x.plain

def colorOf (p : Props) (key : String) : Expr := (ColorValue.ofText (p.text? key)).toDart

def borderColorOf (p : Props) : Expr := (ColorValue.ofBorder (p.text? "border")).toDart

def insetsOf (p : Props) (key : String) : Expr := (Insets.of (p.get? key)).toDart

def dimensionOf (p : Props) (key : String) : Expr := (Dimension.of (p.get? key)).toDart

def radiusOf (p : Props) : Expr :=
  .call "BorderRadius.circular" [plain (number (lengthOf (p.get? "borderRadius") zeroLength))]

def framed (p : Props) : Expr := .call "Border.all" [named "color" (borderColorOf p)]

/-- The properties that a container's gap is taken from, in this order. -/
def gapKeys : List String := ["gap", "rowGap", "columnGap"]

def gapOf (p : Props) : Binary64 := lengthOf (p.firstTruthy gapKeys) zeroLength

/-- Puts a spacer between neighbours, unless the gap is zero. The spacer is vertical
whatever the direction. -/
def spaced (gap : Binary64) (children : List Expr) : List Expr :=
  if gap.isZero then children
  else children.intersperse (.call "SizedBox" [named "height" (number gap)])

def container (p : Props) (children : List Expr) : Expr :=
  .block "Container" [
    named "width" (dimensionOf p "width"),
    named "height" (dimensionOf p "height"),
    named "padding" (insetsOf p "padding"),
    named "margin" (insetsOf p "margin"),
    named "decoration" (.block "BoxDecoration" [
      named "color" (colorOf p "background"),
      named "borderRadius" (radiusOf p),
      named "border" (framed p)]),
    named "child" (.block "Column" [
      named "mainAxisAlignment" (MainAxis.of (p.text? "justifyContent")).toDart,
      named "crossAxisAlignment" (CrossAxis.of (p.text? "alignItems")).toDart,
      named "children" (.list (spaced (gapOf p) children))])]

def text (p : Props) : Expr :=
  .block "Text" [
    plain (.quoted (p.textOr "text" "")),
    named "style" (.block "TextStyle" [
      named "fontSize" (number (lengthOf (p.get? "fontSize") (.ofInt 14))),
      named "color" (colorOf p "color"),
      named "fontWeight" (FontWeight.of (p.text? "fontWeight")).toDart,
      named "fontFamily" (.quoted (p.textOr "fontFamily" "Arial")),
      named "decoration" (TextDecoration.of (p.text? "textDecoration")).toDart,
      named "letterSpacing" (.word (letterSpacingOf (p.get? "letterSpacing")).pointed)]),
    named "textAlign" (TextAlign.of (p.text? "textAlign")).toDart]

/-- What pressing a button does: it opens the screen that its `gotoScreen` names. -/
def pressed (routes : Routes) (p : Props) : Expr :=
  match (p.text? "gotoScreen").bind routes.pathOf? with
  | some path =>
    .action (.call "Navigator.pushNamed" [plain (.word "context"), plain (.quoted path)])
  | none => .idle ""

def button (routes : Routes) (p : Props) : Expr :=
  .block "Padding" [
    named "padding" (insetsOf p "margin"),
    named "child" (.block "ElevatedButton" [
      named "onPressed" (pressed routes p),
      named "style" (.block "ElevatedButton.styleFrom" [
        named "backgroundColor" (colorOf p "background"),
        named "padding" (insetsOf p "padding"),
        named "shape" (.block "RoundedRectangleBorder" [
          named "borderRadius" (radiusOf p)])]),
      named "child" (.block "Text" [
        plain (.quoted (p.textOr "text" "Button")),
        named "style" (.call "TextStyle" [named "color" (colorOf p "color")])])])]

def input (p : Props) : Expr :=
  .block "Padding" [
    named "padding" (insetsOf p "margin"),
    named "child" (.block "TextField" [
      named "decoration" (.block "InputDecoration" [
        named "hintText" (.quoted (p.textOr "placeholder" "")),
        named "contentPadding" (insetsOf p "padding"),
        named "border" (.block "OutlineInputBorder" [
          named "borderRadius" (radiusOf p),
          named "borderSide" (.call "BorderSide" [named "color" (borderColorOf p)])])])])]

def checkbox (p : Props) : Expr :=
  .block "Row" [
    named "children" (.list [
      .call "Checkbox" [named "value" (.word "false"), named "onChanged" (.idle "_")],
      .call "Text" [plain (.quoted (p.textOr "label" ""))]])]

/-- An image without a source is nothing. -/
def image (p : Props) : Expr :=
  match (p.text? "src").map Text.trim with
  | none | some "" => nothing
  | some src =>
    .block "Container" [
      named "width" (dimensionOf p "width"),
      named "height" (dimensionOf p "height"),
      named "margin" (insetsOf p "margin"),
      named "padding" (insetsOf p "padding"),
      named "decoration" (.block "BoxDecoration" [
        named "borderRadius" (radiusOf p),
        named "border" (framed p)]),
      named "child" (.block "ClipRRect" [
        named "borderRadius" (radiusOf p),
        named "child" (.block "Image.network" [
          plain (.quoted src),
          named "fit" (.word "BoxFit.cover")])])]

/-- A table keeps its border only. -/
def table (p : Props) : Expr :=
  .block "Table" [
    named "border" (.call "TableBorder.all" [named "color" (borderColorOf p)]),
    named "children" (.remark "fluttergen: table rows are not generated")]

def element (routes : Routes) (kind : Kind) (p : Props) (children : List Expr) : Expr :=
  match kind with
  | .container => container p children
  | .text => text p
  | .button => button routes p
  | .input => input p
  | .checkbox => checkbox p
  | .image => image p
  | .table => table p
  | .unknown _ => nothing

end Screenwright.Widget
