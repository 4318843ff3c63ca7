import Mathlib.Data.List.Forall2
import Mathlib.Data.Option.Basic
import Screenwright.Proofs.Outcomes
import Screenwright.Proofs.Widgets

namespace Screenwright.Proofs.Likeness
open Dart Design Screen Widget Widgets Outcomes

/-- Nodes with the same children whose widgets are related as soon as the widgets of their children
are, each with its own routes. -/
structure Counterpart (R : Expr → Expr → Prop) (routes routes' : Routes) (node node' : Node) :
    Prop where
  container : node.kind = .container ↔ node'.kind = .container
  children : node'.children = node.children
  element : ∀ es es', List.Forall₂ R es es' →
    R (element routes node.kind node.props es) (element routes' node'.kind node'.props es')

/-- Nodes of one kind with the same children. Their widgets are related as soon as the widgets of
their children are. -/
structure Twin (R : Expr → Expr → Prop) (routes : Routes) (node node' : Node) : Prop where
  kind : node'.kind = node.kind
  children : node'.children = node.children
  element : ∀ es es', List.Forall₂ R es es' →
    R (element routes node.kind node.props es) (element routes node.kind node'.props es')

variable {R : Expr → Expr → Prop} {routes routes' : Routes} {t t' : DesignTree}

theorem Twin.counterpart {node node' : Node} (h : Twin R routes node node') :
    Counterpart R routes routes node node' where
  container := by rw [h.kind]
  children := h.children
  element := h.kind ▸ h.element

theorem forall₂_filterMap {α β γ : Type} {S : β → γ → Prop} {f : α → Option β} {g : α → Option γ}
    {xs : List α} (h : ∀ x ∈ xs, Option.Rel S (f x) (g x)) :
    List.Forall₂ S (xs.filterMap f) (xs.filterMap g) := by
  induction xs with
  | nil => exact .nil
  | cons x xs ih =>
    obtain ⟨hx, hxs⟩ := List.forall_mem_cons.mp h
    rw [List.filterMap_cons, List.filterMap_cons]
    generalize f x = a at hx
    generalize g x = b at hx
    cases hx with
    | none => exact ih hxs
    | some hab => exact .cons hab (ih hxs)

/-- Children are related one by one, since the same ones are left out on both sides. -/
theorem Counterpart.childrenBelow {node node' : Node} (h : Counterpart R routes routes' node node')
    {path : List String} (hc : ∀ c ∈ node.children,
      Option.Rel R (compileBelow routes t path c) (compileBelow routes' t' path c)) :
    List.Forall₂ R (childrenBelow routes t path node) (childrenBelow routes' t' path node') := by
  by_cases hk : node.kind = .container
  · have hk' := h.container.mp hk
    simp only [Widgets.childrenBelow, hk, hk', h.children]
    exact forall₂_filterMap hc
  · have hk' : ¬ node'.kind = .container := fun hk' => hk (h.container.mpr hk')
    rw [childrenBelow_leaf hk, childrenBelow_leaf hk']
    exact .nil

/-- Only the nodes that child lists lead to take part, so it is enough that those have
counterparts. -/
theorem rel_compileBelow_within {P : String → Prop}
    (hclosed : ∀ id node, P id → t.get? id = some node → ∀ c ∈ node.children, P c)
    (h : ∀ id, P id → Option.Rel (Counterpart R routes routes') (t.get? id) (t'.get? id))
    (path : List String) (id : String) (hid : P id) :
    Option.Rel R (compileBelow routes t path id) (compileBelow routes' t' path id) := by
  induction path, id using compileBelow.induct routes t with
  | case1 path id hmissing =>
    have hrel := h id hid
    rw [hmissing] at hrel
    cases hmissing' : t'.get? id with
    | none =>
      rw [compileBelow_missing hmissing, compileBelow_missing hmissing']
      exact .none
    | some node' =>
      rw [hmissing'] at hrel
      cases hrel
  | case2 path id node _ hp =>
    rw [compileBelow_repeated hp, compileBelow_repeated hp]
    exact .none
  | case3 path id node hn hp ih =>
    have hrel := h id hid
    rw [hn] at hrel
    cases hn' : t'.get? id with
    | none =>
      rw [hn'] at hrel
      cases hrel
    | some node' =>
      rw [hn'] at hrel
      cases hrel with
      | some hnode =>
        have hchildren := hnode.childrenBelow fun c hc => ih c (hclosed id node hid hn c hc)
        rw [compileBelow_node hn hp, compileBelow_node hn' hp]
        exact .some (hnode.element _ _ hchildren)

theorem rel_compileBelow (h : ∀ id, Option.Rel (Twin R routes) (t.get? id) (t'.get? id))
    (path : List String) (id : String) :
    Option.Rel R (compileBelow routes t path id) (compileBelow routes t' path id) := by
  have hcounterpart (id : String) (_ : True) :
      Option.Rel (Counterpart R routes routes) (t.get? id) (t'.get? id) :=
    rel_imp_mem (h id) fun _ _ _ => Twin.counterpart
  exact rel_compileBelow_within (fun _ _ _ _ _ _ => trivial) hcounterpart path id trivial

end Screenwright.Proofs.Likeness
