import Screenwright.Widget.Element

namespace Screenwright.Widget
open Dart Design Screen

def offPath (t : DesignTree) (path : List String) : List String := t.ids.filter (· ∉ path)

theorem offPath_cons (t : DesignTree) (id : String) (path : List String) :
    offPath t (id :: path) = (offPath t path).filter (· ≠ id) := by
  simp only [offPath, List.filter_filter]
  congr 1
  funext x
  simp [not_or]

theorem length_offPath_lt {t : DesignTree} {id : String} {path : List String} {node : Node}
    (h : t.get? id = some node) (hp : id ∉ path) :
    (offPath t (id :: path)).length < (offPath t path).length := by
  rw [offPath_cons]
  refine List.length_filter_lt_length_iff_exists.mpr ⟨id, ?_, by simp⟩
  exact List.mem_filter.mpr ⟨DesignTree.mem_ids_of_get? h, by simpa using hp⟩

/-- The widget of a node below a path of ids. A child that is not in the tree, or already lies on
the path, is left out, so the recursion never gets deeper than the tree has nodes. -/
def compileBelow (routes : Routes) (t : DesignTree) (path : List String) (id : String) :
    Option Expr :=
  match _h : t.get? id with
  | none => none
  | some node =>
    if _hp : id ∈ path then none
    else
      let children := match node.kind with
        | .container => node.children.filterMap fun c => compileBelow routes t (id :: path) c
        | _ => []
      some (element routes node.kind node.props children)
termination_by (offPath t path).length
decreasing_by exact length_offPath_lt _h _hp

/-- The widget of a node, if the tree has it. -/
def compile (routes : Routes) (t : DesignTree) (id : String) : Option Expr :=
  compileBelow routes t [] id

/-- The text of a node's widget at a column; a missing node has none. -/
def code (routes : Routes) (t : DesignTree) (id : String) (indent : Nat) : String :=
  match compile routes t id with
  | some e => e.render indent
  | none => ""

end Screenwright.Widget
