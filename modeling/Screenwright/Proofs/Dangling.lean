import Screenwright.Proofs.Widgets

namespace Screenwright.Proofs.Dangling
open Dart Design Screen Widget Widgets

def listed (t : DesignTree) (node : Node) : List String := node.children.filter (· ∈ t.ids)

/-- A design with other child lists. -/
def relisted (t : DesignTree) (lists : Node → List String) : DesignTree :=
  t.mapNodes (fun node => { node with children := lists node }) fun _ => rfl

variable {routes : Routes} {t : DesignTree} {lists : Node → List String}

/-- What comes to nothing may be left out beforehand. -/
theorem filterMap_shown {α β : Type} {f : α → Option β} {keep : α → Bool}
    (h : ∀ a, keep a = false → f a = none) (as : List α) :
    (as.filter keep).filterMap f = as.filterMap f := by
  rw [List.filterMap_filter]
  refine List.filterMap_congr fun a _ => ?_
  cases hk : keep a with
  | true => rfl
  | false => simp [h a hk]

theorem filterMap_existing (routes : Routes) (t : DesignTree) (path ids : List String) :
    (ids.filter (· ∈ t.ids)).filterMap (compileBelow routes t path) =
      ids.filterMap (compileBelow routes t path) :=
  filterMap_shown (fun _ h =>
    compileBelow_missing (DesignTree.get?_eq_none_iff.mpr (by simpa using h))) ids

theorem compileBelow_relisted
    (h : ∀ node ∈ t.nodes, (lists node).filter (· ∈ t.ids) = listed t node)
    (path : List String) (id : String) :
    compileBelow routes (relisted t lists) path id = compileBelow routes t path id := by
  induction path, id using compileBelow.induct routes t with
  | case1 path id hmissing =>
    have hmissing' : (relisted t lists).get? id = none := by
      rw [relisted, DesignTree.get?_mapNodes, hmissing]
      rfl
    rw [compileBelow_missing hmissing, compileBelow_missing hmissing']
  | case2 path id node _ hp => rw [compileBelow_repeated hp, compileBelow_repeated hp]
  | case3 path id node hn hp ih =>
    have hn' : (relisted t lists).get? id = some { node with children := lists node } := by
      rw [relisted, DesignTree.get?_mapNodes, hn]
      rfl
    have hsame := h node (List.mem_of_find?_eq_some hn)
    -- Both lists shrink to the children that the design has, and those are the same.
    have hlists : (lists node).filterMap (compileBelow routes (relisted t lists) (id :: path)) =
        node.children.filterMap (compileBelow routes t (id :: path)) := by
      calc (lists node).filterMap (compileBelow routes (relisted t lists) (id :: path))
          = (lists node).filterMap (compileBelow routes t (id :: path)) :=
            List.filterMap_congr fun c _ => ih c
        _ = (listed t node).filterMap (compileBelow routes t (id :: path)) := by
            rw [← hsame, filterMap_existing]
        _ = node.children.filterMap (compileBelow routes t (id :: path)) :=
            filterMap_existing routes t (id :: path) node.children
    rw [compileBelow_node hn hp, compileBelow_node hn' hp]
    cases hk : node.kind <;> simp only [childrenBelow, hk, hlists]

theorem code_relisted (routes : Routes)
    (h : ∀ node ∈ t.nodes, (lists node).filter (· ∈ t.ids) = listed t node)
    (id : String) (indent : Nat) :
    code routes (relisted t lists) id indent = code routes t id indent := by
  unfold code compile
  rw [compileBelow_relisted h]

/-- Ids that the design does not have may be taken out of all child lists, or put into them
anywhere: the code stays the same. -/
theorem code_dangling (routes : Routes) (t : DesignTree) (id : String) (indent : Nat) :
    code routes (relisted t (listed t)) id indent = code routes t id indent ∧
      ∀ lists : Node → List String,
        (∀ node ∈ t.nodes, (lists node).filter (· ∈ t.ids) = listed t node) →
          code routes (relisted t lists) id indent = code routes t id indent := by
  have hlisted : ∀ node ∈ t.nodes, (listed t node).filter (· ∈ t.ids) = listed t node := by
    intro node _
    rw [listed, List.filter_filter]
    simp only [Bool.and_self]
  exact ⟨code_relisted routes hlisted id indent, fun lists h => code_relisted routes h id indent⟩

/-- Two columns, one in the other, with gaps; the inner one lists the outer one. -/
def columns : DesignTree := .ofList [
  { id := "ROOT", kind := .container, props := .ofList [("gap", .text "8px")],
    children := ["title", "inner", "title"] },
  { id := "title", kind := .text },
  { id := "inner", kind := .container, props := .ofList [("rowGap", .text "4px")],
    children := ["ROOT", "title"] }]

/-- Missing ids in front of every child and behind the last one. -/
def littered (node : Node) : List String :=
  node.children.flatMap (fun c => ["lost", c]) ++ ["gone", "lost"]

theorem code_dangling_columns :
    (∀ node ∈ columns.nodes, (littered node).filter (· ∈ columns.ids) = listed columns node) ∧
      code {} (relisted columns littered) "ROOT" 2 = code {} columns "ROOT" 2 := by
  have h : ∀ node ∈ columns.nodes,
      (littered node).filter (· ∈ columns.ids) = listed columns node := by
    have hnodes : columns.nodes.all (fun node =>
        decide ((littered node).filter (· ∈ columns.ids) = listed columns node)) = true := by
      decide +kernel
    simpa using hnodes
  exact ⟨h, (code_dangling {} columns "ROOT" 2).2 littered h⟩

end Screenwright.Proofs.Dangling
