import Screenwright.Dart.Literal

namespace Screenwright.Dart

inductive Expr where
  /-- A number or a name, written as it is. -/
  | word (text : String)
  /-- A string literal. -/
  | quoted (text : String)
  /-- A call on one line; arguments may have names. -/
  | call (callee : String) (args : List (Option String × Expr))
  /-- A call with an argument on each line. -/
  | block (callee : String) (args : List (Option String × Expr))
  /-- A list with an item on each line. -/
  | list (items : List Expr)
  /-- A list that holds nothing but a comment. -/
  | remark (comment : String)
  /-- A function that does nothing. -/
  | idle (params : String)
  /-- A function without parameters that evaluates an expression. -/
  | action (body : Expr)

namespace Expr

def pad (columns : Nat) : String := String.ofList (List.replicate columns ' ')

def labelled (name : Option String) (value : String) : String :=
  match name with
  | some name => name ++ ": " ++ value
  | none => value

/-- A piece of text on a line of its own, in front of a comma. -/
def line (indent : Nat) (text : String) : String := pad indent ++ text ++ ",\n"

mutual

/-- The text of an expression placed at a column; its first line is not indented. -/
def render (indent : Nat) : Expr → String
  | .word text => text
  | .quoted text => quote text
  | .call callee args => callee ++ "(" ++ ", ".intercalate (renderArgs indent args) ++ ")"
  | .block callee args =>
    callee ++ "(\n" ++ "".intercalate ((renderArgs (indent + 2) args).map (line (indent + 2))) ++
      pad indent ++ ")"
  | .list [] => "[]"
  | .list items =>
    "[\n" ++ "".intercalate ((renderItems (indent + 2) items).map (line (indent + 2))) ++
      pad indent ++ "]"
  | .remark comment => "[\n" ++ pad (indent + 2) ++ "// " ++ comment ++ "\n" ++ pad indent ++ "]"
  | .idle params => "(" ++ params ++ ") \x7b\x7d"
  | .action body => "() => " ++ body.render indent

def renderArgs (indent : Nat) : List (Option String × Expr) → List String
  | [] => []
  | (name, value) :: args => labelled name (value.render indent) :: renderArgs indent args

def renderItems (indent : Nat) : List Expr → List String
  | [] => []
  | item :: items => item.render indent :: renderItems indent items

end

def ofInt (n : Int) : Expr := .word (toString n)

def named (name : String) (value : Expr) : Option String × Expr := (some name, value)

def plain (value : Expr) : Option String × Expr := (none, value)

end Expr
end Screenwright.Dart
