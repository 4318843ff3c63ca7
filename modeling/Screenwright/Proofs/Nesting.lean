import Mathlib.Data.List.Perm.Subperm
import Screenwright.Proofs.Placement

namespace Screenwright.Proofs.Nesting
open Dart Expr Design Screen Widget Widgets Placement

/-- A call that has returned, with the path as it was before and behind it. -/
structure Call where
  id : String
  before : List String
  behind : List String

/-- The path as it stands, all that it has been so far, and the calls that have returned. -/
structure Progress where
  path : List String := []
  past : List (List String) := []
  calls : List Call := []

/-- A walk has no result if it needs more levels than it may have. -/
abbrev Walk := StateT Progress Option

namespace Progress

def moved (s : Progress) (path : List String) : Progress :=
  { s with path := path, past := s.path :: s.past }

def returned (s : Progress) (id : String) (before : List String) : Progress :=
  { s with calls := ⟨id, before, s.path⟩ :: s.calls }

end Progress

def push (id : String) : Walk Unit := modify fun s => s.moved (id :: s.path)

def pop : Walk Unit := modify fun s => s.moved s.path.tail

/-- The texts of a node's children, one after the other. Only containers have any. -/
def childTexts (walkChild : String → Walk String) (node : Node) : Walk (List String) :=
  match node.kind with
  | .container => node.children.mapM walkChild
  | _ => pure []

/-- The text of a node around those of its children; the empty ones are left out. -/
def textAround (routes : Routes) (node : Node) (indent : Nat) (texts : List String) : String :=
  (element routes node.kind node.props ((texts.filter (· ≠ "")).map .word)).render indent

/-- The text of a node at a column. Its children stand at a fixed distance from it. -/
def walk (routes : Routes) (t : DesignTree) : Nat → String → Nat → Walk String
  | 0, _, _ => failure
  | levels + 1, id, indent => do
    let before := (← get).path
    let text ← match t.get? id with
      | none => pure ""
      | some node =>
        if node.id ∈ before then pure ""
        else do
          push node.id
          let texts ← childTexts (fun c => walk routes t levels c (indent + 6)) node
          pop
          pure (textAround routes node indent texts)
    modify (·.returned id before)
    return text

/-- A path of pairwise distinct nodes of a design. -/
structure Proper (t : DesignTree) (path : List String) : Prop where
  nodup : path.Nodup
  present : path ⊆ t.ids

/-- What holds throughout a walk. -/
structure Kept (t : DesignTree) (s : Progress) : Prop where
  path : Proper t s.path
  past : ∀ path ∈ s.past, Proper t path
  calls : ∀ call ∈ s.calls, call.behind = call.before

variable {routes : Routes} {t : DesignTree} {s : Progress} {id : String} {path : List String}

theorem Proper.push (h : Proper t path) (hid : id ∈ t.ids) (hp : id ∉ path) :
    Proper t (id :: path) :=
  ⟨List.nodup_cons.mpr ⟨hp, h.nodup⟩, List.cons_subset.mpr ⟨hid, h.present⟩⟩

theorem Proper.length_le (h : Proper t path) : path.length ≤ t.size := by
  have hle := (h.nodup.subperm h.present).length_le
  rwa [DesignTree.ids, List.length_map] at hle

theorem Kept.moved (h : Kept t s) (hp : Proper t path) : Kept t (s.moved path) :=
  ⟨hp, List.forall_mem_cons.mpr ⟨h.path, h.past⟩, h.calls⟩

theorem Kept.returned (h : Kept t s) (id : String) : Kept t (s.returned id s.path) :=
  ⟨h.path, h.past, List.forall_mem_cons.mpr ⟨rfl, h.calls⟩⟩

theorem run_bind {α β : Type} (w : Walk α) (f : α → Walk β) (s : Progress) :
    (w >>= f) s = (w s).bind fun p => f p.1 p.2 := rfl

theorem run_pure {α : Type} (a : α) (s : Progress) : (pure a : Walk α) s = some (a, s) := rfl

theorem run_get (s : Progress) : (get : Walk Progress) s = some (s, s) := rfl

theorem run_modify (f : Progress → Progress) (s : Progress) :
    (modify f : Walk Unit) s = some ((), f s) := rfl

theorem run_push (id : String) (s : Progress) :
    push id s = some ((), s.moved (id :: s.path)) := rfl

theorem run_pop (s : Progress) : pop s = some ((), s.moved s.path.tail) := rfl

theorem walk_missing (h : t.get? id = none) (levels indent : Nat) (s : Progress) :
    walk routes t (levels + 1) id indent s = some ("", s.returned id s.path) := by
  simp only [walk, run_bind, run_get, run_pure, run_modify, Option.bind_some, h]

theorem walk_repeated (h : id ∈ s.path) (levels indent : Nat) :
    walk routes t (levels + 1) id indent s = some ("", s.returned id s.path) := by
  cases hn : t.get? id with
  | none => exact walk_missing hn levels indent s
  | some node =>
    obtain rfl := DesignTree.id_of_get? hn
    simp only [walk, run_bind, run_get, run_pure, run_modify, Option.bind_some, hn, if_pos h]

theorem walk_node {node : Node} (hn : t.get? id = some node) (hp : id ∉ s.path)
    {levels indent : Nat} {texts : List String} {s' : Progress}
    (hc : childTexts (fun c => walk routes t levels c (indent + 6)) node
      (s.moved (id :: s.path)) = some (texts, s')) :
    walk routes t (levels + 1) id indent s =
      some (textAround routes node indent texts,
        (s'.moved s'.path.tail).returned id s.path) := by
  obtain rfl := DesignTree.id_of_get? hn
  simp only [walk, run_bind, run_get, run_pure, run_modify, run_push, run_pop, Option.bind_some, hn,
    if_neg hp, hc]

def textOf (indent : Nat) : Option Expr → String
  | some e => e.render indent
  | none => ""

theorem textOf_eq_empty_iff {routes : Routes} {t : DesignTree} {path : List String} {id : String}
    (indent : Nat) :
    textOf indent (compileBelow routes t path id) = "" ↔ compileBelow routes t path id = none := by
  cases hc : compileBelow routes t path id with
  | none => simp [textOf]
  | some e => simpa [textOf] using (begins_compileBelow hc indent).ne_empty

theorem renderItems_eq (indent : Nat) (items : List Expr) :
    renderItems indent items = items.map (render indent) := by
  induction items with
  | nil => rfl
  | cons item items ih => rw [renderItems, ih, List.map_cons]

theorem render_list_congr {indent : Nat} {items items' : List Expr}
    (h : renderItems (indent + 2) items = renderItems (indent + 2) items') :
    (Expr.list items).render indent = (Expr.list items').render indent := by
  cases items with
  | nil =>
    cases items' with
    | nil => rfl
    | cons _ _ => simp [renderItems] at h
  | cons _ _ =>
    cases items' with
    | nil => simp [renderItems] at h
    | cons _ _ => rw [render, render, h] <;> simp

def written (indent : Nat) (e : Expr) : Expr := .word (e.render indent)

theorem renderItems_spaced (gap : Binary64) (indent : Nat) (es : List Expr) :
    renderItems indent (spaced gap (es.map (written indent))) =
      renderItems indent (spaced gap es) := by
  unfold spaced
  split
  · rw [renderItems_eq, renderItems_eq, List.map_map]
    rfl
  · induction es with
    | nil => rfl
    | cons e es ih =>
      cases es with
      | nil => rfl
      | cons f es =>
        simp only [List.map_cons, List.intersperse_cons_cons, renderItems] at ih ⊢
        rw [ih]
        rfl

/-- The children of a container may be put in as texts, six columns further to the right. -/
theorem render_element_written (routes : Routes) (kind : Kind) (p : Props) (es : List Expr)
    (indent : Nat) :
    (element routes kind p (es.map (written (indent + 6)))).render indent =
      (element routes kind p es).render indent := by
  cases kind with
  | container =>
    have hlist := render_list_congr (renderItems_spaced (gapOf p) (indent + 6) es)
    simp only [element, container, render, renderArgs, named, hlist]
  | _ => rfl

theorem words_shown {f : String → Option Expr} {indent : Nat}
    (h : ∀ c, textOf indent (f c) = "" ↔ f c = none) (cs : List String) :
    ((cs.map fun c => textOf indent (f c)).filter (· ≠ "")).map .word =
      (cs.filterMap f).map (written indent) := by
  induction cs with
  | nil => rfl
  | cons c cs ih =>
    rw [List.map_cons, List.filterMap_cons]
    cases hc : f c with
    | none =>
      rw [List.filter_cons_of_neg (by simpa [hc] using h c)]
      exact ih
    | some e =>
      rw [List.filter_cons_of_pos (by simpa [hc] using h c), List.map_cons, List.map_cons, ih]
      rfl

theorem textAround_texts (routes : Routes) (t : DesignTree) (path : List String) {node : Node}
    (hk : node.kind = .container) (indent : Nat) :
    textAround routes node indent
        (node.children.map fun c => textOf (indent + 6) (compileBelow routes t path c)) =
      (element routes node.kind node.props (childrenBelow routes t path node)).render indent := by
  have hshown (c : String) : textOf (indent + 6) (compileBelow routes t path c) = "" ↔
      compileBelow routes t path c = none := textOf_eq_empty_iff (indent + 6)
  rw [textAround, words_shown hshown, render_element_written]
  simp only [childrenBelow, hk]

/-- Children that each keep what holds, one after the other, keep it together. -/
theorem runs_mapM {walkChild : String → Walk String} {text : String → String}
    (h : ∀ c s, Kept t s → s.path = path →
      ∃ s', walkChild c s = some (text c, s') ∧ Kept t s' ∧ s'.path = path)
    (cs : List String) (hs : Kept t s) (hp : s.path = path) :
    ∃ s', cs.mapM walkChild s = some (cs.map text, s') ∧ Kept t s' ∧ s'.path = path := by
  induction cs generalizing s with
  | nil => exact ⟨s, rfl, hs, hp⟩
  | cons c cs ih =>
    obtain ⟨s₁, hc, hs₁, hp₁⟩ := h c s hs hp
    obtain ⟨s₂, hcs, hs₂, hp₂⟩ := ih hs₁ hp₁
    refine ⟨s₂, ?_, hs₂, hp₂⟩
    simp only [List.mapM_cons, run_bind, run_pure, hc, hcs, Option.bind_some, List.map_cons]

theorem childTexts_leaf {walkChild : String → Walk String} {node : Node}
    (h : node.kind ≠ .container) : childTexts walkChild node = pure [] := by
  unfold childTexts
  split
  · next hk => exact absurd hk h
  · rfl

theorem runs_childTexts {walkChild : String → Walk String} {indent : Nat} (node : Node)
    (h : ∀ c s, Kept t s → s.path = path → ∃ s',
      walkChild c s = some (textOf (indent + 6) (compileBelow routes t path c), s') ∧
        Kept t s' ∧ s'.path = path)
    (hs : Kept t s) (hp : s.path = path) :
    ∃ texts s', childTexts walkChild node s = some (texts, s') ∧
      textAround routes node indent texts =
        (element routes node.kind node.props (childrenBelow routes t path node)).render indent ∧
      Kept t s' ∧ s'.path = path := by
  by_cases hk : node.kind = .container
  · obtain ⟨s', hrun, hs', hp'⟩ := runs_mapM h node.children hs hp
    refine ⟨_, s', ?_, textAround_texts routes t path hk indent, hs', hp'⟩
    simp only [childTexts, hk, hrun]
  · refine ⟨[], s, ?_, ?_, hs, hp⟩
    · rw [childTexts_leaf hk, run_pure]
    · rw [childrenBelow_leaf hk]
      rfl

/-- With a level for every node that is not on the path and one more, a walk ends: it gives the text
of the compiled node, and the path is again what it was. -/
theorem runs_walk (routes : Routes) (t : DesignTree) {levels : Nat} {s : Progress} (id : String)
    (indent : Nat) (hs : Kept t s) (hl : (offPath t s.path).length < levels) :
    ∃ s', walk routes t levels id indent s =
        some (textOf indent (compileBelow routes t s.path id), s') ∧
      Kept t s' ∧ s'.path = s.path := by
  induction levels generalizing s id indent with
  | zero => exact absurd hl (Nat.not_lt_zero _)
  | succ levels ih =>
    cases hn : t.get? id with
    | none =>
      rw [compileBelow_missing hn, walk_missing hn]
      exact ⟨_, rfl, hs.returned id, rfl⟩
    | some node =>
      by_cases hp : id ∈ s.path
      · rw [compileBelow_repeated hp, walk_repeated hp]
        exact ⟨_, rfl, hs.returned id, rfl⟩
      · have hlonger : Kept t (s.moved (id :: s.path)) :=
          hs.moved (hs.path.push (DesignTree.mem_ids_of_get? hn) hp)
        have hfewer := length_offPath_lt hn hp
        have hchild (c : String) (r : Progress) (hr : Kept t r) (hpath : r.path = id :: s.path) :
            ∃ r', walk routes t levels c (indent + 6) r =
                some (textOf (indent + 6) (compileBelow routes t (id :: s.path) c), r') ∧
              Kept t r' ∧ r'.path = id :: s.path := by
          have hlevels : (offPath t r.path).length < levels := by
            rw [hpath]
            omega
          simpa only [hpath] using ih c (indent + 6) hr hlevels
        obtain ⟨texts, r, hrun, htext, hr, hpath⟩ :=
          runs_childTexts node hchild hlonger rfl
        have htail : r.path.tail = s.path := by rw [hpath, List.tail_cons]
        have hback : Kept t (r.moved r.path.tail) := hr.moved (htail ▸ hs.path)
        rw [compileBelow_node hn hp, walk_node hn hp hrun, htext]
        exact ⟨_, rfl, htail ▸ hback.returned id, htail⟩

/-- Compiling ends, however the nodes are linked, and nests at most one level deeper than the design
has nodes. Meanwhile the path holds pairwise distinct nodes of the design, and every call leaves it
as it was. The code is empty for missing nodes only. -/
theorem walk_ends (routes : Routes) (t : DesignTree) (id : String) (indent more : Nat) :
    ∃ s, walk routes t (t.size + 1 + more) id indent {} = some (code routes t id indent, s) ∧
      s.path = [] ∧
      (∀ path ∈ s.past, path.Nodup ∧ path ⊆ t.ids ∧ path.length ≤ t.size) ∧
      (∀ call ∈ s.calls, call.behind = call.before) ∧
      (code routes t id indent = "" ↔ id ∉ t.ids) := by
  have hstart : Kept t {} := ⟨⟨List.nodup_nil, List.nil_subset _⟩, by simp, by simp⟩
  have hlevels : (offPath t ({} : Progress).path).length < t.size + 1 + more := by
    have hle : (offPath t []).length ≤ t.ids.length := List.length_filter_le _ _
    rw [DesignTree.ids, List.length_map] at hle
    exact Nat.lt_add_right more (Nat.lt_succ_of_le hle)
  have hcode : code routes t id indent = textOf indent (compileBelow routes t [] id) := by
    rw [code, compile]
    cases compileBelow routes t [] id <;> rfl
  obtain ⟨s, hrun, hs, hpath⟩ := runs_walk routes t id indent hstart hlevels
  refine ⟨s, hcode ▸ hrun, hpath, fun path hp => ?_, hs.calls, ?_⟩
  · have hproper := hs.past path hp
    exact ⟨hproper.nodup, hproper.present, hproper.length_le⟩
  · rw [hcode, textOf_eq_empty_iff, ← DesignTree.get?_eq_none_iff]
    cases hn : t.get? id with
    | none => simp [compileBelow_missing hn]
    | some node => simp [compileBelow_node hn List.not_mem_nil]

end Screenwright.Proofs.Nesting
