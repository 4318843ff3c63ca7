import Screenwright.Proofs.Integers
import Screenwright.Proofs.Nesting

namespace Screenwright.Proofs.Spacing
open Dart Expr Design Screen Style Widget Widgets Layout Integers Nesting

/-- The length that a value states: a finite number, or the integer that a text starts with. -/
inductive States : PropValue → Binary64 → Prop
  | number {x} : x.isFinite = true → States (.number x) x
  | text {s n} : leadingInt s = some n → States (.text s) (.ofInt n)

/-- The first truthy property under some keys. -/
inductive First (p : Props) : List String → PropValue → Prop
  | here {key keys v} : p.get? key = some v → v.isTruthy = true → First p (key :: keys) v
  | later {key keys v} : (∀ w, p.get? key = some w → w.isTruthy = false) → First p keys v →
      First p (key :: keys) v

/-- The gap of a container is zero unless the first truthy property states a length. -/
inductive Gap (p : Props) : Binary64 → Prop
  | stated {v g} : First p gapKeys v → States v g → Gap p g
  | unstated {v} : First p gapKeys v → (∀ g, ¬ States v g) → Gap p zeroLength
  | absent : (∀ v, ¬ First p gapKeys v) → Gap p zeroLength

/-- Items with a spacer between each two neighbours, by their places. -/
structure Between (spacer : String) (fragments items : List String) : Prop where
  length : items.length = 2 * fragments.length - 1
  fragment : ∀ i, i < fragments.length → items[2 * i]? = fragments[i]?
  spacer : ∀ i, i + 1 < fragments.length → items[2 * i + 1]? = some spacer

/-- Items as a gap sets them apart; one of zero leaves them as they are. -/
def Spaced (gap : Binary64) (fragments items : List String) : Prop :=
  if gap.isZero then items = fragments
  else Between ("SizedBox(height: " ++ gap.plain ++ ")") fragments items

/-- The children of a node that the design has and that are not on a path. -/
def showing (t : DesignTree) (path : List String) (node : Node) : List String :=
  node.children.filter fun c => c ∈ t.ids ∧ c ∉ path

/-- The nodes that compiling comes to, each with the path that leads to it and its column. -/
inductive Met (t : DesignTree) (top : String) (indent : Nat) : List String → Node → Nat → Prop
  | top {node} : t.get? top = some node → Met t top indent [] node indent
  | child {path node column c found} : Met t top indent path node column →
      node.kind = .container → c ∈ node.children → t.get? c = some found →
      c ∉ node.id :: path → Met t top indent (node.id :: path) found (column + 6)

def listing (column : Nat) (items : List String) : String :=
  if items.isEmpty then "[]"
  else "[\n" ++ "".intercalate (items.map (line (column + 2))) ++ pad column ++ "]"

/-- A call up to the value of its last argument, all its arguments on lines of their own. -/
def opening (column : Nat) (callee : String) (args : List (Option String × Expr)) (last : String) :
    String :=
  callee ++ "(\n" ++ "".intercalate ((renderArgs (column + 2) args).map (line (column + 2))) ++
    pad (column + 2) ++ last ++ ": "

def closing (column : Nat) : String := ",\n" ++ pad column ++ ")"

def boxArgs (p : Props) : List (Option String × Expr) := [
  named "width" (dimensionOf p "width"),
  named "height" (dimensionOf p "height"),
  named "padding" (insetsOf p "padding"),
  named "margin" (insetsOf p "margin"),
  named "decoration" (.block "BoxDecoration" [
    named "color" (colorOf p "background"),
    named "borderRadius" (radiusOf p),
    named "border" (framed p)])]

def axisArgs (p : Props) : List (Option String × Expr) := [
  named "mainAxisAlignment" (MainAxis.of (p.text? "justifyContent")).toDart,
  named "crossAxisAlignment" (CrossAxis.of (p.text? "alignItems")).toDart]

/-- The code of a container around the text of its list. -/
def around (p : Props) (column : Nat) (list : String) : String :=
  opening column "Container" (boxArgs p) "child" ++
    opening (column + 2) "Column" (axisArgs p) "children" ++ list ++ closing (column + 2) ++
    closing column

def Within (s t : String) : Prop := ∃ before after, t = before ++ s ++ after

/-- The list of a container at a column, with a path above it: which children have fragments, how
those are set apart, and what does not count. -/
structure Arranged (routes : Routes) (t : DesignTree) (path : List String) (node : Node)
    (column : Nat) (items : List String) : Prop where
  fragments : ∀ c, textOf (column + 6) (compileBelow routes t (node.id :: path) c) ≠ "" ↔
    c ∈ t.ids ∧ c ∉ node.id :: path
  spaced : ∃ gap, (∀ g, Gap node.props g ↔ g = gap) ∧ Spaced gap
    ((showing t (node.id :: path) node).map fun c =>
      textOf (column + 6) (compileBelow routes t (node.id :: path) c)) items
  empty : showing t (node.id :: path) node = [] → listing (column + 4) items = "[]"
  /-- The gap runs down the column, whatever direction the container is given. -/
  directed : ∀ q : Props, (∀ key, key ≠ "flexDirection" → q.get? key = node.props.get? key) →
    ∀ es, container q es = container node.props es

variable {routes : Routes} {t : DesignTree} {path : List String} {node : Node} {p : Props}

theorem lengthOf_states {v : PropValue} {g : Binary64} (h : States v g) (fallback : Binary64) :
    lengthOf (some v) fallback = g := by
  cases h with
  | number hx => simp [lengthOf, hx]
  | text hn => rw [lengthOf_text, hn, Option.map_some, Option.getD_some]

theorem lengthOf_unstated {v : PropValue} (h : ∀ g, ¬ States v g) (fallback : Binary64) :
    lengthOf (some v) fallback = fallback := by
  cases v with
  | number x =>
    have hx : x.isFinite ≠ true := fun hx => h x (.number hx)
    simp [lengthOf, hx]
  | text s =>
    cases hn : leadingInt s with
    | some n => exact absurd (.text hn) (h _)
    | none => rw [lengthOf_text, hn, Option.map_none, Option.getD_none]
  | _ => rfl

theorem firstTruthy_here {key : String} {keys : List String} {v : PropValue}
    (hv : p.get? key = some v) (ht : v.isTruthy = true) : p.firstTruthy (key :: keys) = some v := by
  simp [Props.firstTruthy, hv, ht]

theorem firstTruthy_later {key : String} {keys : List String}
    (h : ∀ w, p.get? key = some w → w.isTruthy = false) :
    p.firstTruthy (key :: keys) = p.firstTruthy keys := by
  cases hw : p.get? key with
  | none => simp [Props.firstTruthy, hw]
  | some w => simp [Props.firstTruthy, hw, h w hw]

theorem firstTruthy_eq_some_iff {keys : List String} {v : PropValue} :
    p.firstTruthy keys = some v ↔ First p keys v := by
  constructor
  case mpr =>
    intro h
    induction h with
    | here hv ht => exact firstTruthy_here hv ht
    | later hw _ ih => rw [firstTruthy_later hw, ih]
  case mp =>
    intro h
    induction keys with
    | nil => cases h
    | cons key keys ih =>
      by_cases hw : ∀ w, p.get? key = some w → w.isTruthy = false
      · rw [firstTruthy_later hw] at h
        exact .later hw (ih h)
      · simp only [not_forall, Bool.not_eq_false] at hw
        obtain ⟨w, hget, ht⟩ := hw
        rw [firstTruthy_here hget ht] at h
        cases h
        exact .here hget ht

theorem gap_gapOf (p : Props) : Gap p (gapOf p) := by
  rw [gapOf]
  cases hv : p.firstTruthy gapKeys with
  | none =>
    refine .absent fun v hfirst => ?_
    rw [firstTruthy_eq_some_iff.mpr hfirst] at hv
    cases hv
  | some v =>
    have hfirst : First p gapKeys v := firstTruthy_eq_some_iff.mp hv
    by_cases hs : ∃ g, States v g
    · obtain ⟨g, hg⟩ := hs
      rw [lengthOf_states hg]
      exact .stated hfirst hg
    · have hnone : ∀ g, ¬ States v g := fun g hg => hs ⟨g, hg⟩
      rw [lengthOf_unstated hnone]
      exact .unstated hfirst hnone

theorem gap_iff {g : Binary64} : Gap p g ↔ g = gapOf p := by
  refine ⟨fun h => ?_, fun h => h ▸ gap_gapOf p⟩
  rw [gapOf]
  cases h with
  | stated hv hg => rw [firstTruthy_eq_some_iff.mpr hv, lengthOf_states hg]
  | unstated hv hg => rw [firstTruthy_eq_some_iff.mpr hv, lengthOf_unstated hg]
  | absent hnone =>
    have hv : p.firstTruthy gapKeys = none :=
      Option.eq_none_iff_forall_ne_some.mpr fun v hv => hnone v (firstTruthy_eq_some_iff.mp hv)
    rw [hv]
    rfl

theorem spaced_texts (gap : Binary64) (column : Nat) (es : List Expr) :
    Spaced gap (es.map (render column)) ((spaced gap es).map (render column)) := by
  unfold Spaced spaced
  split
  · rfl
  · constructor
    case length => simp
    case fragment =>
      intro i _
      rw [List.getElem?_map, List.getElem?_intersperse_two_mul, List.getElem?_map]
    case spacer =>
      intro i hi
      rw [List.getElem?_map, List.getElem?_intersperse_two_mul_add_one (by simpa using hi)]
      have hspacer : (Expr.call "SizedBox" [named "height" (number gap)]).render column =
          "SizedBox(height: " ++ gap.plain ++ ")" := by
        simp only [render, renderArgs, named, number, labelled, String.intercalate_singleton,
          ← String.append_assoc]
        rfl
      rw [Option.map_some, hspacer]

theorem compileBelow_isSome (routes : Routes) {c : String} :
    (compileBelow routes t path c).isSome = true ↔ c ∈ t.ids ∧ c ∉ path := by
  cases hn : t.get? c with
  | none =>
    have hc := DesignTree.get?_eq_none_iff.mp hn
    simp [compileBelow_missing hn, hc]
  | some found =>
    have hc := DesignTree.mem_ids_of_get? hn
    by_cases hp : c ∈ path
    · simp [compileBelow_repeated hp, hp]
    · simp [compileBelow_node hn hp, hp, hc]

theorem texts_showing (routes : Routes) (t : DesignTree) (path : List String) (node : Node)
    (column : Nat) :
    (node.children.filterMap (compileBelow routes t path)).map (render column) =
      (showing t path node).map fun c => textOf column (compileBelow routes t path c) := by
  unfold showing
  induction node.children with
  | nil => rfl
  | cons c cs ih =>
    by_cases hc : c ∈ t.ids ∧ c ∉ path
    · obtain ⟨e, he⟩ := Option.isSome_iff_exists.mp ((compileBelow_isSome routes).mpr hc)
      rw [List.filterMap_cons_some he, List.filter_cons_of_pos (by simpa using hc), List.map_cons,
        List.map_cons, ih, he]
      rfl
    · have he : compileBelow routes t path c = none := by
        rw [← Option.not_isSome_iff_eq_none, compileBelow_isSome]
        exact hc
      rw [List.filterMap_cons_none he, List.filter_cons_of_neg (by simpa using hc), ih]

theorem render_list (column : Nat) (es : List Expr) :
    (Expr.list es).render column = listing column (es.map (render (column + 2))) := by
  cases es with
  | nil => rfl
  | cons e es => simp [render, renderItems_eq, listing]

theorem renderArgs_append (column : Nat) (as bs : List (Option String × Expr)) :
    renderArgs column (as ++ bs) = renderArgs column as ++ renderArgs column bs := by
  induction as with
  | nil => rfl
  | cons a as ih => rw [List.cons_append, renderArgs, renderArgs, ih, List.cons_append]

theorem concat_append (as bs : List String) :
    "".intercalate (as ++ bs) = "".intercalate as ++ "".intercalate bs := by
  induction as with
  | nil => simp
  | cons a as ih => rw [List.cons_append, concat_cons, ih, concat_cons, String.append_assoc]

theorem render_block (column : Nat) (callee : String) (args : List (Option String × Expr))
    (last : String) (value : Expr) :
    (Expr.block callee (args ++ [named last value])).render column =
      opening column callee args last ++ value.render (column + 2) ++ closing column := by
  simp only [render, renderArgs_append, renderArgs, named, labelled, List.map_append, List.map_cons,
    List.map_nil, concat_append, String.intercalate_singleton, line, opening, closing,
    String.append_assoc]

theorem render_container (p : Props) (es : List Expr) (column : Nat) :
    (container p es).render column =
      around p column (listing (column + 4) ((spaced (gapOf p) es).map (render (column + 6)))) := by
  have hcontainer : container p es = .block "Container" (boxArgs p ++ [named "child"
      (.block "Column" (axisArgs p ++ [named "children" (.list (spaced (gapOf p) es))]))]) := rfl
  rw [hcontainer, render_block, render_block, render_list, around]
  simp only [String.append_assoc]

theorem container_directed {p q : Props}
    (h : ∀ key, key ≠ "flexDirection" → q.get? key = p.get? key) (es : List Expr) :
    container q es = container p es := by
  simp (disch := decide) only [container, dimensionOf, insetsOf, colorOf, radiusOf, framed,
    borderColorOf, gapOf, gapKeys, Props.firstTruthy, List.filterMap_cons, List.filterMap_nil,
    Props.text?, h]

theorem Within.trans {a b c : String} (h : Within a b) (h' : Within b c) : Within a c := by
  obtain ⟨before, after, rfl⟩ := h
  obtain ⟨before', after', rfl⟩ := h'
  exact ⟨before' ++ before, after ++ after', by simp only [String.append_assoc]⟩

theorem within_around (p : Props) (column : Nat) (list : String) :
    Within list (around p column list) :=
  ⟨opening column "Container" (boxArgs p) "child" ++
      opening (column + 2) "Column" (axisArgs p) "children",
    closing (column + 2) ++ closing column, by simp only [around, String.append_assoc]⟩

theorem within_listing {item : String} {items : List String} (h : item ∈ items) (column : Nat) :
    Within item (listing column items) := by
  obtain ⟨as, bs, rfl⟩ := List.append_of_mem h
  have hne : (as ++ item :: bs).isEmpty = false := by simp
  rw [listing, hne, List.map_append, List.map_cons, concat_append, concat_cons, line]
  exact ⟨"[\n" ++ "".intercalate (as.map (line (column + 2))) ++ pad (column + 2),
    ",\n" ++ "".intercalate (bs.map (line (column + 2))) ++ pad column ++ "]", by
      simp [String.append_assoc]⟩

theorem Spaced.mem {gap : Binary64} {fragments items : List String} (h : Spaced gap fragments items)
    {s : String} (hs : s ∈ fragments) : s ∈ items := by
  unfold Spaced at h
  split at h
  · exact h ▸ hs
  · obtain ⟨i, hi⟩ := List.getElem?_of_mem hs
    have hlt := (List.getElem?_eq_some_iff.mp hi).1
    exact List.mem_of_getElem? ((h.fragment i hlt).trans hi)

/-- The text of a container is its list, arranged, between what surrounds it. -/
theorem arranged_container (routes : Routes) (hn : t.get? node.id = some node)
    (hp : node.id ∉ path) (hk : node.kind = .container) (column : Nat) :
    ∃ items, Arranged routes t path node column items ∧
      textOf column (compileBelow routes t path node.id) =
        around node.props column (listing (column + 4) items) := by
  let es := node.children.filterMap (compileBelow routes t (node.id :: path))
  have htexts : es.map (render (column + 6)) = (showing t (node.id :: path) node).map fun c =>
      textOf (column + 6) (compileBelow routes t (node.id :: path) c) :=
    texts_showing routes t (node.id :: path) node (column + 6)
  refine ⟨(spaced (gapOf node.props) es).map (render (column + 6)), ?_, ?_⟩
  · constructor
    case fragments =>
      intro c
      rw [ne_eq, textOf_eq_empty_iff, ← compileBelow_isSome routes,
        Option.isSome_iff_ne_none]
    case spaced => exact ⟨_, fun _ => gap_iff, htexts ▸ spaced_texts _ _ es⟩
    case empty =>
      intro hnone
      rw [hnone, List.map_nil, List.map_eq_nil_iff] at htexts
      simp [htexts, spaced, listing]
    case directed => exact fun q hq es => container_directed hq es
  · rw [compileBelow_node hn hp, hk, childrenBelow, hk]
    exact render_container node.props es column

theorem Met.present {top : String} {indent column : Nat}
    (h : Met t top indent path node column) : t.get? node.id = some node ∧ node.id ∉ path := by
  cases h with
  | top hn => exact ⟨DesignTree.id_of_get? hn ▸ hn, List.not_mem_nil⟩
  | child _ _ _ hn hp =>
    rw [DesignTree.id_of_get? hn]
    exact ⟨hn, hp⟩

/-- What compiling comes to is in the code: every container has the fragments of its children in
its list. -/
theorem Met.within (routes : Routes) {top : String} {indent column : Nat}
    (h : Met t top indent path node column) :
    Within (textOf column (compileBelow routes t path node.id)) (code routes t top indent) := by
  induction h with
  | top hn =>
    rw [DesignTree.id_of_get? hn, code, compile]
    refine ⟨"", "", ?_⟩
    cases compileBelow routes t [] top <;> simp [textOf]
  | @child path node column c found hmet hk hc hn hp ih =>
    obtain ⟨hnode, hnot⟩ := hmet.present
    obtain ⟨items, harranged, htext⟩ := arranged_container routes hnode hnot hk column
    obtain ⟨gap, _, hspaced⟩ := harranged.spaced
    rw [htext] at ih
    rw [DesignTree.id_of_get? hn]
    have hshows : c ∈ showing t (node.id :: path) node :=
      List.mem_filter.mpr ⟨hc, decide_eq_true ⟨DesignTree.mem_ids_of_get? hn, hp⟩⟩
    have hitem := hspaced.mem (List.mem_map_of_mem hshows)
    exact ((within_listing hitem (column + 4)).trans (within_around _ _ _)).trans ih

/-- A list of films on a page. Between its children it names the page, itself and a missing id, and
its first gap is not truthy. -/
def films : Node where
  id := "films"
  kind := .container
  props := .ofList [("columnGap", .number (.ofInt 2)), ("rowGap", .text "12px"), ("gap", .text ""),
    ("flexDirection", .text "row")]
  children := ["lost", "film", "ROOT", "lost", "title", "film", "films"]

def home : Node where
  id := "ROOT"
  kind := .container
  children := ["title", "films"]

def page : DesignTree := .ofList [
  home, { id := "title", kind := .text }, films, { id := "film", kind := .unknown "Video" }]

end Screenwright.Proofs.Spacing
