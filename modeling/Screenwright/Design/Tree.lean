import Screenwright.Design.Node

namespace Screenwright.Design

/-- Nodes with pairwise distinct ids, in the order in which the ids first came. A child list may
name any id, so the nodes form a graph with cycles rather than a tree in the strict sense. -/
structure DesignTree where
  nodes : List Node
  nodup : (nodes.map Node.id).Nodup

namespace DesignTree

def empty : DesignTree := ⟨[], by simp⟩

instance : EmptyCollection DesignTree := ⟨empty⟩

def ids (t : DesignTree) : List String := t.nodes.map Node.id

def size (t : DesignTree) : Nat := t.nodes.length

def isEmpty (t : DesignTree) : Bool := t.nodes.isEmpty

def get? (t : DesignTree) (id : String) : Option Node := t.nodes.find? (·.id = id)

/-- A node with a new id goes to the end; a known id keeps its place. -/
def insert (t : DesignTree) (node : Node) : DesignTree :=
  ⟨Keyed.put Node.id node t.nodes, Keyed.nodup_put t.nodup⟩

def ofList (nodes : List Node) : DesignTree := nodes.foldl insert empty

theorem nodes_ofList (nodes : List Node) :
    (ofList nodes).nodes = nodes.foldl (fun ns node => Keyed.put Node.id node ns) [] :=
  (List.foldl_hom DesignTree.nodes fun _ _ => rfl).symm

theorem ofList_concat (nodes : List Node) (node : Node) :
    ofList (nodes ++ [node]) = (ofList nodes).insert node := by
  rw [ofList, List.foldl_append]
  rfl

/-- Of equal ids the last one counts. -/
theorem get?_ofList (nodes : List Node) (id : String) :
    (ofList nodes).get? id = nodes.reverse.find? (·.id = id) := by
  rw [get?, nodes_ofList, Keyed.find?_foldl_put, List.find?_nil, Option.or_none]

theorem ids_insert (t : DesignTree) (node : Node) :
    (t.insert node).ids = if node.id ∈ t.ids then t.ids else t.ids ++ [node.id] :=
  Keyed.map_put Node.id node t.nodes

theorem id_of_get? {t : DesignTree} {id : String} {node : Node} (h : t.get? id = some node) :
    node.id = id := by
  simpa using List.find?_some h

theorem mem_ids_of_get? {t : DesignTree} {id : String} {node : Node} (h : t.get? id = some node) :
    id ∈ t.ids := by
  rw [← id_of_get? h]
  exact List.mem_map_of_mem (List.mem_of_find?_eq_some h)

theorem mem_ids_iff {t : DesignTree} {id : String} : id ∈ t.ids ↔ (t.get? id).isSome := by
  simp [ids, get?]

theorem mem_ids_ofList {nodes : List Node} {id : String} :
    id ∈ (ofList nodes).ids ↔ id ∈ nodes.map Node.id := by
  rw [mem_ids_iff, get?_ofList]
  simp

theorem get?_eq_none_iff {t : DesignTree} {id : String} : t.get? id = none ↔ id ∉ t.ids := by
  simp [mem_ids_iff]

/-- Changes every node, in what is not its id. -/
def mapNodes (t : DesignTree) (f : Node → Node) (hf : ∀ node, (f node).id = node.id) :
    DesignTree where
  nodes := t.nodes.map f
  nodup := by
    have hid : Node.id ∘ f = Node.id := funext hf
    rw [List.map_map, hid]
    exact t.nodup

theorem get?_mapNodes (t : DesignTree) (f : Node → Node) (hf : ∀ node, (f node).id = node.id)
    (id : String) : (t.mapNodes f hf).get? id = (t.get? id).map f := by
  have hid : (fun node : Node => decide (node.id = id)) ∘ f = fun node => decide (node.id = id) :=
    funext fun node => by rw [Function.comp_apply, hf]
  rw [get?, mapNodes, List.find?_map, hid]
  rfl

/-- The id of the node that a screen shows. -/
def rootId : String := "ROOT"

def root? (t : DesignTree) : Option Node := t.get? rootId

end DesignTree
end Screenwright.Design
