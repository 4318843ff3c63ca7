import Screenwright.Proofs.Documents
import Screenwright.Proofs.Likeness

namespace Screenwright.Proofs.Locality
open Dart Design Screen Style Widget Documents Likeness Outcomes

/-- A widget depends on nothing but what look-ups of properties find. -/
theorem element_sameProps {p q : Props} (h : SameProps p q) (routes : Routes) (kind : Kind)
    (children : List Expr) : element routes kind p children = element routes kind q children := by
  have hget : p.get? = q.get? := funext h
  have htext (key : String) : p.text? key = q.text? key := by
    simp only [Props.text?, hget]
  have hor (key default : String) : p.textOr key default = q.textOr key default := by
    simp only [Props.textOr, hget]
  have hgap : gapOf p = gapOf q := by
    simp only [gapOf, Props.firstTruthy, hget]
  cases kind with
  | container =>
    simp only [element, container, dimensionOf, insetsOf, colorOf, radiusOf, framed, borderColorOf,
      hget, htext, hgap]
  | text => simp only [element, Widget.text, colorOf, hget, htext, hor]
  | button => simp only [element, button, insetsOf, pressed, colorOf, radiusOf, hget, htext, hor]
  | input => simp only [element, input, insetsOf, radiusOf, borderColorOf, hget, htext, hor]
  | checkbox => simp only [element, checkbox, hor]
  | image =>
    simp only [element, image, dimensionOf, insetsOf, radiusOf, framed, borderColorOf, hget, htext]
  | table => simp only [element, table, borderColorOf, htext]
  | unknown tag => rfl

/-- Keys are distinct, so the order of properties does not count. -/
theorem sameProps_of_perm {p q : Props} (h : p.entries.Perm q.entries) : SameProps p q := by
  intro key
  unfold Catalog.get?
  rw [Keyed.find?_perm h p.nodup]

/-- The screen that a node opens when it is pressed, by its label. -/
def targetOf (node : Node) : Option String :=
  match node.kind with
  | .button => node.props.text? "gotoScreen"
  | _ => none

/-- Only buttons look at the routes, for the screen that they open. -/
theorem element_routes {routes routes' : Routes} {node : Node}
    (h : ∀ label, targetOf node = some label → routes.pathOf? label = routes'.pathOf? label)
    (children : List Expr) :
    element routes node.kind node.props children =
      element routes' node.kind node.props children := by
  unfold targetOf at h
  cases hk : node.kind with
  | button =>
    have hpressed : pressed routes node.props = pressed routes' node.props := by
      unfold pressed
      cases hlabel : node.props.text? "gotoScreen" with
      | none => rfl
      | some label =>
        have hpath := h label (by rw [hk]; exact hlabel)
        simp only [Option.bind_some, hpath]
    simp only [element, button, hpressed]
  | _ => rfl

/-- Kinds that show the same. A tag without a widget shows nothing, whatever it is. -/
def SameKind : Kind → Kind → Prop
  | .unknown _, .unknown _ => True
  | kind, kind' => kind = kind'

theorem SameKind.container {kind kind' : Kind} (h : SameKind kind kind') :
    kind = .container ↔ kind' = .container := by
  cases kind <;> cases kind' <;> simp_all [SameKind]

theorem SameKind.element {kind kind' : Kind} (h : SameKind kind kind') (routes : Routes)
    (p : Props) (children : List Expr) :
    element routes kind p children = element routes kind' p children := by
  unfold SameKind at h
  split at h
  · rfl
  · rw [h]

/-- Nodes that show the same; their ids, parents, displayed names and canvas flags may differ. -/
structure SameNode (node node' : Node) : Prop where
  kind : SameKind node.kind node'.kind
  props : node.props.entries.Perm node'.props.entries
  children : node'.children = node.children

theorem SameNode.counterpart {node node' : Node} (h : SameNode node node')
    {routes routes' : Routes}
    (hr : ∀ label, targetOf node = some label → routes.pathOf? label = routes'.pathOf? label) :
    Counterpart Eq routes routes' node node' where
  container := h.kind.container
  children := h.children
  element := by
    intro es es' hes
    have heq : es = es' := by rwa [List.forall₂_eq_eq_eq] at hes
    calc element routes node.kind node.props es
        = element routes' node.kind node.props es := element_routes hr es
      _ = element routes' node'.kind node.props es := h.kind.element routes' _ es
      _ = element routes' node'.kind node'.props es :=
          element_sameProps (sameProps_of_perm h.props) routes' _ es
      _ = element routes' node'.kind node'.props es' := by rw [heq]

/-- The ids that child lists lead to from an id, whether or not the design has them. -/
inductive Linked (t : DesignTree) (top : String) : String → Prop where
  | top : Linked t top top
  | child {id c : String} {node : Node} : Linked t top id → t.get? id = some node →
      c ∈ node.children → Linked t top c

/-- Ids that hold all children of their nodes are never left. -/
theorem Linked.mem {t : DesignTree} {top id : String} {ids : List String} (h : Linked t top id)
    (htop : top ∈ ids) (hclosed : ∀ id ∈ ids, (t.get? id).elim [] Node.children ⊆ ids) :
    id ∈ ids := by
  induction h with
  | top => exact htop
  | child _ hn hc ih =>
    have hchildren := hclosed _ ih
    rw [hn] at hchildren
    exact hchildren hc

theorem Linked.trans {t : DesignTree} {a b c : String} (h : Linked t a b) (h' : Linked t b c) :
    Linked t a c := by
  induction h' with
  | top => exact h
  | child _ hn hc ih => exact ih.child hn hc

/-- Two designs that are the same from an id downwards. -/
def SameBelow (t t' : DesignTree) (top : String) : Prop :=
  ∀ id, Linked t top id → Option.Rel SameNode (t.get? id) (t'.get? id)

/-- Routes that give the same path for every screen that a button below an id opens. -/
def SameTargets (routes routes' : Routes) (t : DesignTree) (top : String) : Prop :=
  ∀ id node label, Linked t top id → t.get? id = some node → targetOf node = some label →
    routes.pathOf? label = routes'.pathOf? label

variable {routes routes' : Routes} {t t' : DesignTree} {top : String}

theorem compile_local (h : SameBelow t t' top) (hr : SameTargets routes routes' t top) :
    compile routes t top = compile routes' t' top := by
  have hclosed (id : String) (node : Node) (hid : Linked t top id) (hn : t.get? id = some node) :
      ∀ c ∈ node.children, Linked t top c := by
    intro c hc
    exact hid.child hn hc
  have hnodes (id : String) (hid : Linked t top id) :
      Option.Rel (Counterpart Eq routes routes') (t.get? id) (t'.get? id) := by
    apply rel_imp_mem (h id hid)
    intro node hn node' hnode
    exact hnode.counterpart fun label => hr id node label hid hn
  exact eq_of_rel (rel_compileBelow_within hclosed hnodes [] top .top)

/-- The code of a node depends on the nodes below it alone, and on the routes only for the screens
that their buttons open. -/
theorem code_local (h : SameBelow t t' top) (hr : SameTargets routes routes' t top)
    (indent : Nat) : code routes t top indent = code routes' t' top indent := by
  unfold code
  rw [compile_local h hr]

/-- A page with a button that leads to another screen, and with the page itself in its list. -/
def page : DesignTree := .ofList [
  { id := "ROOT", kind := .container,
    props := .ofList [("gap", .text "8px"), ("width", .text "fill")],
    children := ["go", "list", "lost"] },
  { id := "go", kind := .button,
    props := .ofList [("text", .text "Go"), ("gotoScreen", .text "Home")] },
  { id := "list", kind := .container, children := ["ROOT", "film"], parent := some "ROOT" },
  { id := "film", kind := .unknown "Video" },
  { id := "stray", kind := .text, props := .ofList [("text", .text "Hello")] }]

/-- The page in another order, with other nodes that nothing leads to. -/
def reordered : DesignTree := .ofList [
  { id := "film", kind := .unknown "Map", isCanvas := true },
  { id := "list", kind := .container, children := ["ROOT", "film"], displayName := some "List" },
  { id := "go", kind := .button,
    props := .ofList [("gotoScreen", .text "Home"), ("text", .text "Go")], parent := some "list" },
  { id := "stray", kind := .button, props := .ofList [("gotoScreen", .text "About")] },
  { id := "ROOT", kind := .container,
    props := .ofList [("width", .text "fill"), ("gap", .text "8px")],
    children := ["go", "list", "lost"] }]

theorem linked_page {id : String} (h : Linked page "ROOT" id) :
    id ∈ ["ROOT", "go", "list", "film", "lost"] :=
  h.mem (by decide) (by decide)

theorem sameBelow_page : SameBelow page reordered "ROOT" := by
  intro id hid
  have hmem := linked_page hid
  simp only [List.mem_cons, List.not_mem_nil, or_false] at hmem
  rcases hmem with rfl | rfl | rfl | rfl | rfl
  · exact .some ⟨rfl, .swap _ _ _, rfl⟩
  · exact .some ⟨rfl, .swap _ _ _, rfl⟩
  · exact .some ⟨rfl, .nil, rfl⟩
  · exact .some ⟨trivial, .nil, rfl⟩
  · exact .none

theorem code_local_page :
    SameBelow page reordered "ROOT" ∧
      SameTargets (.resolve ["Home", "About"]) (.resolve ["About us", "Home"]) page "ROOT" ∧
      code (.resolve ["Home", "About"]) page "ROOT" 2 =
        code (.resolve ["About us", "Home"]) reordered "ROOT" 2 := by
  have htargets :
      SameTargets (.resolve ["Home", "About"]) (.resolve ["About us", "Home"]) page "ROOT" := by
    intro id node label hid hn hlabel
    have hhome : ∀ id ∈ ["ROOT", "go", "list", "film", "lost"],
        (page.get? id).bind targetOf ∈ [none, some "Home"] := by decide
    have hlabel' := hhome id (linked_page hid)
    rw [hn, Option.bind_some, hlabel] at hlabel'
    obtain rfl : label = "Home" := by simpa using hlabel'
    decide +kernel
  exact ⟨sameBelow_page, htargets, code_local sameBelow_page htargets 2⟩

end Screenwright.Proofs.Locality
