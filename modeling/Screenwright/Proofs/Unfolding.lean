import Screenwright.Proofs.Dangling
import Screenwright.Proofs.Locality

namespace Screenwright.Proofs.Unfolding
open Dart Design Screen Widget Widgets Dangling Locality

/-- An element with everything below it. It stands at a path of ids, from its own back to the one
at the top. -/
structure Branch where
  path : List String
  kind : Kind
  props : Props
  children : List Branch

namespace Branch

mutual

/-- The widget of an element around those of everything below it. -/
def widget (routes : Routes) : Branch → Expr
  | ⟨_, kind, props, children⟩ => element routes kind props (widgets routes children)

def widgets (routes : Routes) : List Branch → List Expr
  | [] => []
  | b :: bs => b.widget routes :: widgets routes bs

end

mutual

/-- The elements of a branch, its own and those below it. -/
def all : Branch → List Branch
  | ⟨path, kind, props, children⟩ => ⟨path, kind, props, children⟩ :: allOf children

def allOf : List Branch → List Branch
  | [] => []
  | b :: bs => b.all ++ allOf bs

end

theorem all_eq (b : Branch) : b.all = b :: allOf b.children := by
  cases b
  rfl

theorem mem_all_self (b : Branch) : b ∈ b.all := by
  rw [all_eq]
  exact List.mem_cons_self

theorem mem_allOf {bs : List Branch} {c : Branch} : c ∈ allOf bs ↔ ∃ b ∈ bs, c ∈ b.all := by
  induction bs with
  | nil => simp [allOf]
  | cons b bs ih => simp [allOf, ih]

theorem mem_all_child {b c : Branch} (h : c ∈ b.children) : c ∈ b.all := by
  rw [all_eq]
  exact List.mem_cons_of_mem _ (mem_allOf.mpr ⟨c, h, c.mem_all_self⟩)

mutual

theorem mem_all_trans (b : Branch) {c d : Branch} (hc : c ∈ b.all) (hd : d ∈ c.all) :
    d ∈ b.all := by
  cases b with
  | mk path kind props children =>
    rcases List.mem_cons.mp hc with rfl | hc
    · exact hd
    · exact List.mem_cons_of_mem _ (mem_allOf_trans children hc hd)

theorem mem_allOf_trans (bs : List Branch) {c d : Branch} (hc : c ∈ allOf bs) (hd : d ∈ c.all) :
    d ∈ allOf bs := by
  cases bs with
  | nil => cases hc
  | cons b bs =>
    rcases List.mem_append.mp hc with hc | hc
    · exact List.mem_append_left _ (mem_all_trans b hc hd)
    · exact List.mem_append_right _ (mem_allOf_trans bs hc hd)

end

end Branch

/-- A path of pairwise distinct nodes from an id, along child lists; written from its end. -/
structure Simple (t : DesignTree) (top : String) (path : List String) : Prop where
  nodup : path.Nodup
  present : ∀ id ∈ path, id ∈ t.ids
  start : path.getLast? = some top
  linked : path.IsChain fun c id => ∃ node, t.get? id = some node ∧ c ∈ node.children

/-- The paths that are one id longer, in the order of the child list and as often as it has them. -/
def extensions (t : DesignTree) : List String → List (List String)
  | [] => []
  | id :: path =>
    (((t.get? id).elim [] (listed t)).filter (· ∉ id :: path)).map (· :: id :: path)

/-- An element that is what the last node of its path is, with the extensions of its path below. -/
structure Follows (t : DesignTree) (b : Branch) : Prop where
  carries : ∃ node, b.path.head?.bind t.get? = some node ∧ b.kind = node.kind ∧
    b.props = node.props
  children : b.children.map Branch.path = extensions t b.path

/-- The tree that a design unfolds to from an id. -/
structure Unfolds (t : DesignTree) (top : String) (b : Branch) : Prop where
  path : b.path = [top]
  follows : ∀ c ∈ b.all, Follows t c

/-- No list of children leads from one of a node's children back to the node. -/
def Acyclic (t : DesignTree) (top : String) : Prop :=
  ∀ id node, Linked t top id → t.get? id = some node → ∀ c ∈ node.children, ¬ Linked t c id

variable {routes : Routes} {t : DesignTree} {top id : String} {path : List String}

theorem extensions_cons {node : Node} (h : t.get? id = some node) (path : List String) :
    extensions t (id :: path) =
      ((listed t node).filter (· ∉ id :: path)).map (· :: id :: path) := by
  simp only [extensions, h, Option.elim_some]

theorem Follows.node {b : Branch} (h : Follows t b) (hb : b.path = id :: path) :
    ∃ node, t.get? id = some node ∧ b.kind = node.kind ∧ b.props = node.props ∧
      b.children.map Branch.path =
        ((listed t node).filter (· ∉ id :: path)).map (· :: id :: path) := by
  obtain ⟨node, hn, hkind, hprops⟩ := h.carries
  rw [hb, List.head?_cons, Option.bind_some] at hn
  exact ⟨node, hn, hkind, hprops, by rw [h.children, hb, extensions_cons hn]⟩

theorem exists_branches {ids : List String}
    (h : ∀ c ∈ ids, ∃ b : Branch, b.path = c :: path ∧ ∀ d ∈ b.all, Follows t d) :
    ∃ bs : List Branch, bs.map Branch.path = ids.map (· :: path) ∧
      ∀ d ∈ Branch.allOf bs, Follows t d := by
  induction ids with
  | nil => exact ⟨[], rfl, by simp [Branch.allOf]⟩
  | cons c ids ih =>
    obtain ⟨hc, hids⟩ := List.forall_mem_cons.mp h
    obtain ⟨b, hpath, hb⟩ := hc
    obtain ⟨bs, hpaths, hbs⟩ := ih hids
    refine ⟨b :: bs, by rw [List.map_cons, List.map_cons, hpath, hpaths], fun d hd => ?_⟩
    exact (List.mem_append.mp hd).elim (hb d) (hbs d)

theorem exists_branch (t : DesignTree) (path : List String) (id : String) (hid : id ∈ t.ids)
    (hp : id ∉ path) : ∃ b : Branch, b.path = id :: path ∧ ∀ c ∈ b.all, Follows t c := by
  induction path, id using compileBelow.induct {} t with
  | case1 path id hmissing => exact absurd hid (DesignTree.get?_eq_none_iff.mp hmissing)
  | case2 path id node _ hrepeated => exact absurd hrepeated hp
  | case3 path id node hn _ ih =>
    have hparts : ∀ c ∈ (listed t node).filter (· ∉ id :: path),
        ∃ b : Branch, b.path = c :: id :: path ∧ ∀ d ∈ b.all, Follows t d := by
      intro c hc
      obtain ⟨hlisted, hnew⟩ := List.mem_filter.mp hc
      exact ih c (by simpa using (List.mem_filter.mp hlisted).2) (by simpa using hnew)
    obtain ⟨bs, hpaths, hbs⟩ := exists_branches hparts
    refine ⟨⟨id :: path, node.kind, node.props, bs⟩, rfl, fun c hc => ?_⟩
    rcases List.mem_cons.mp hc with rfl | hc
    · exact ⟨⟨node, hn, rfl, rfl⟩, hpaths.trans (extensions_cons hn path).symm⟩
    · exact hbs c hc

mutual

theorem branch_unique (b : Branch) {c : Branch} (hpath : b.path = c.path)
    (hb : ∀ d ∈ b.all, Follows t d) (hc : ∀ d ∈ c.all, Follows t d) : b = c := by
  cases b with
  | mk path kind props children =>
    cases c with
    | mk path' kind' props' children' =>
      obtain rfl : path = path' := hpath
      have hb' := hb _ (Branch.mem_all_self _)
      have hc' := hc _ (Branch.mem_all_self _)
      obtain ⟨node, hn, hkind, hprops⟩ := hb'.carries
      obtain ⟨node', hn', hkind', hprops'⟩ := hc'.carries
      obtain rfl : node = node' := Option.some.inj (hn.symm.trans hn')
      obtain rfl : kind = kind' := hkind.trans hkind'.symm
      obtain rfl : props = props' := hprops.trans hprops'.symm
      rw [branches_unique children (hb'.children.trans hc'.children.symm)
        (fun d hd => hb d (List.mem_cons_of_mem _ hd))
        (fun d hd => hc d (List.mem_cons_of_mem _ hd))]

theorem branches_unique (bs : List Branch) {cs : List Branch}
    (hpaths : bs.map Branch.path = cs.map Branch.path)
    (hb : ∀ d ∈ Branch.allOf bs, Follows t d) (hc : ∀ d ∈ Branch.allOf cs, Follows t d) :
    bs = cs := by
  cases bs with
  | nil => simpa using hpaths
  | cons b bs =>
    cases cs with
    | nil => simp at hpaths
    | cons c cs =>
      rw [List.map_cons, List.map_cons, List.cons.injEq] at hpaths
      rw [branch_unique b hpaths.1 (fun d hd => hb d (List.mem_append_left _ hd))
          (fun d hd => hc d (List.mem_append_left _ hd)),
        branches_unique bs hpaths.2 (fun d hd => hb d (List.mem_append_right _ hd))
          (fun d hd => hc d (List.mem_append_right _ hd))]

end

theorem element_leaf {kind : Kind} (h : kind ≠ .container) (routes : Routes) (p : Props)
    (es es' : List Expr) : element routes kind p es = element routes kind p es' := by
  cases kind with
  | container => exact absurd rfl h
  | _ => rfl

theorem filterMap_offPath (routes : Routes) (t : DesignTree) (path ids : List String) :
    (ids.filter (· ∉ path)).filterMap (compileBelow routes t path) =
      ids.filterMap (compileBelow routes t path) :=
  filterMap_shown (fun _ h => compileBelow_repeated (by simpa using h)) ids

mutual

theorem compileBelow_branch (routes : Routes) (b : Branch) (h : ∀ c ∈ b.all, Follows t c)
    {path : List String} {id : String} (hb : b.path = id :: path) (hp : id ∉ path) :
    compileBelow routes t path id = some (b.widget routes) := by
  cases b with
  | mk _ kind props children =>
    obtain ⟨node, hn, hkind, hprops, hchildren⟩ := (h _ (Branch.mem_all_self _)).node hb
    obtain rfl : kind = node.kind := hkind
    obtain rfl : props = node.props := hprops
    have hwidgets : node.children.filterMap (compileBelow routes t (id :: path)) =
        Branch.widgets routes children := by
      rw [← filterMap_existing, ← filterMap_offPath]
      refine compileBelow_branches routes children
        (fun c hc => h c (List.mem_cons_of_mem _ hc)) hchildren ?_
      intro c hc
      simpa using (List.mem_filter.mp hc).2
    rw [compileBelow_node hn hp, Branch.widget]
    by_cases hk : node.kind = .container
    · simp only [childrenBelow, hk, hwidgets]
    · rw [element_leaf hk]

theorem compileBelow_branches (routes : Routes) (bs : List Branch)
    (h : ∀ c ∈ Branch.allOf bs, Follows t c) {path ids : List String}
    (hbs : bs.map Branch.path = ids.map (· :: path)) (hp : ∀ id ∈ ids, id ∉ path) :
    ids.filterMap (compileBelow routes t path) = Branch.widgets routes bs := by
  cases bs with
  | nil =>
    obtain rfl : ids = [] := by simpa using hbs.symm
    rfl
  | cons b bs =>
    cases ids with
    | nil => simp at hbs
    | cons id ids =>
      rw [List.map_cons, List.map_cons, List.cons.injEq] at hbs
      obtain ⟨hid, hids⟩ := List.forall_mem_cons.mp hp
      rw [List.filterMap_cons,
        compileBelow_branch routes b (fun c hc => h c (List.mem_append_left _ hc)) hbs.1 hid,
        compileBelow_branches routes bs (fun c hc => h c (List.mem_append_right _ hc)) hbs.2 hids,
        Branch.widgets]

end

theorem simple_top (h : top ∈ t.ids) : Simple t top [top] :=
  ⟨List.nodup_singleton top, by simpa using h, rfl, .singleton top⟩

theorem Simple.extended {longer : List String} (h : Simple t top path)
    (hl : longer ∈ extensions t path) : Simple t top longer := by
  cases path with
  | nil => cases hl
  | cons id path =>
    cases hn : t.get? id with
    | none => simp [extensions, hn] at hl
    | some node =>
      rw [extensions_cons hn] at hl
      obtain ⟨c, hc, rfl⟩ := List.mem_map.mp hl
      obtain ⟨hlisted, hnew⟩ := List.mem_filter.mp hc
      obtain ⟨hchild, hid⟩ := List.mem_filter.mp hlisted
      refine ⟨List.nodup_cons.mpr ⟨by simpa using hnew, h.nodup⟩,
        List.forall_mem_cons.mpr ⟨by simpa using hid, h.present⟩, ?_, ?_⟩
      · simpa using h.start
      · exact .cons_cons ⟨node, hn, hchild⟩ h.linked

theorem Simple.shortened {c : String} (h : Simple t top (c :: id :: path)) :
    Simple t top (id :: path) ∧ c :: id :: path ∈ extensions t (id :: path) := by
  obtain ⟨hnew, hnodup⟩ := List.nodup_cons.mp h.nodup
  obtain ⟨hid, hids⟩ := List.forall_mem_cons.mp h.present
  obtain ⟨⟨node, hn, hc⟩, hlinked⟩ := List.isChain_cons_cons.mp h.linked
  refine ⟨⟨hnodup, hids, by simpa using h.start, hlinked⟩, ?_⟩
  rw [extensions_cons hn]
  refine List.mem_map.mpr ⟨c, List.mem_filter.mpr ⟨?_, by simpa using hnew⟩, rfl⟩
  exact List.mem_filter.mpr ⟨hc, by simpa using hid⟩

mutual

theorem simple_of_mem_all (b : Branch) (hb : Simple t top b.path) (h : ∀ c ∈ b.all, Follows t c) :
    ∀ c ∈ b.all, Simple t top c.path := by
  cases b with
  | mk path kind props children =>
    have hown := h _ (Branch.mem_all_self _)
    intro c hc
    rcases List.mem_cons.mp hc with rfl | hc
    · exact hb
    · refine simple_of_mem_allOf children (fun d hd => ?_)
        (fun d hd => h d (List.mem_cons_of_mem _ hd)) c hc
      exact hb.extended (hown.children ▸ List.mem_map_of_mem hd)

theorem simple_of_mem_allOf (bs : List Branch) (hb : ∀ b ∈ bs, Simple t top b.path)
    (h : ∀ c ∈ Branch.allOf bs, Follows t c) : ∀ c ∈ Branch.allOf bs, Simple t top c.path := by
  cases bs with
  | nil => simp [Branch.allOf]
  | cons b bs =>
    obtain ⟨hfirst, hrest⟩ := List.forall_mem_cons.mp hb
    intro c hc
    rcases List.mem_append.mp hc with hc | hc
    · exact simple_of_mem_all b hfirst (fun d hd => h d (List.mem_append_left _ hd)) c hc
    · exact simple_of_mem_allOf bs hrest (fun d hd => h d (List.mem_append_right _ hd)) c hc

end

theorem exists_of_simple {b : Branch} (h : Unfolds t top b) (hp : Simple t top path) :
    ∃ c ∈ b.all, c.path = path := by
  induction path with
  | nil => cases hp.start
  | cons c path ih =>
    cases path with
    | nil =>
      obtain rfl : c = top := by simpa using hp.start
      exact ⟨b, b.mem_all_self, h.path⟩
    | cons id path =>
      obtain ⟨hshort, hext⟩ := hp.shortened
      obtain ⟨d, hd, hpath⟩ := ih hshort
      rw [← hpath, ← (h.follows d hd).children] at hext
      obtain ⟨e, he, hpath'⟩ := List.mem_map.mp hext
      exact ⟨e, b.mem_all_trans hd (Branch.mem_all_child he), hpath'.trans (by rw [hpath])⟩

theorem Unfolds.mem_all_iff {b : Branch} (h : Unfolds t top b) (htop : top ∈ t.ids) :
    (∃ c ∈ b.all, c.path = path) ↔ Simple t top path := by
  constructor
  · rintro ⟨c, hc, rfl⟩
    have hown : Simple t top b.path := h.path ▸ simple_top htop
    exact simple_of_mem_all b hown h.follows c hc
  · exact exists_of_simple h

/-- Only ids that child lists lead to are looked for on the path. -/
theorem compileBelow_congr_path (routes : Routes) {path path' : List String} {id : String}
    (h : ∀ c, Linked t id c → (c ∈ path ↔ c ∈ path')) :
    compileBelow routes t path id = compileBelow routes t path' id := by
  induction path, id using compileBelow.induct routes t generalizing path' with
  | case1 path id hmissing => rw [compileBelow_missing hmissing, compileBelow_missing hmissing]
  | case2 path id node _ hp =>
    rw [compileBelow_repeated hp, compileBelow_repeated ((h id .top).mp hp)]
  | case3 path id node hn hp ih =>
    have hp' : id ∉ path' := fun hm => hp ((h id .top).mpr hm)
    have hchildren : childrenBelow routes t (id :: path) node =
        childrenBelow routes t (id :: path') node := by
      unfold childrenBelow
      split
      · refine List.filterMap_congr fun c hc => ih c fun d hd => ?_
        have hlinked : Linked t id d := (Linked.top.child hn hc).trans hd
        rw [List.mem_cons, List.mem_cons, h d hlinked]
      · rfl
    rw [compileBelow_node hn hp, compileBelow_node hn hp', hchildren]

theorem Simple.linked_end (h : Simple t top (id :: path)) : ∀ c ∈ id :: path, Linked t c id := by
  induction path generalizing id with
  | nil =>
    intro c hc
    obtain rfl := List.mem_singleton.mp hc
    exact .top
  | cons d path ih =>
    obtain ⟨⟨node, hn, hd⟩, _⟩ := List.isChain_cons_cons.mp h.linked
    intro c hc
    rcases List.mem_cons.mp hc with rfl | hc
    · exact .top
    · exact (ih h.shortened.1 c hc).child hn hd

theorem Simple.linked_top (h : Simple t top (id :: path)) : Linked t top id :=
  h.linked_end top (List.mem_of_getLast? h.start)

/-- On a path of a design without cycles, no child of the last node leads back into the path. -/
theorem Acyclic.not_mem (ha : Acyclic t top) {node : Node} (hs : Simple t top (id :: path))
    (hn : t.get? id = some node) {c d : String} (hc : c ∈ node.children) (hd : Linked t c d) :
    d ∉ id :: path :=
  fun hm => ha id node hs.linked_top hn c hc (hd.trans (hs.linked_end d hm))

theorem Acyclic.extensions_eq (ha : Acyclic t top) {node : Node} (hs : Simple t top (id :: path))
    (hn : t.get? id = some node) :
    extensions t (id :: path) = (listed t node).map (· :: id :: path) := by
  have hwhole : (listed t node).filter (· ∉ id :: path) = listed t node := by
    refine List.filter_eq_self.mpr fun c hc => ?_
    simpa using ha.not_mem hs hn (List.mem_filter.mp hc).1 .top
  rw [extensions_cons hn, hwhole]

/-- What a child leads to is not on the path, so nothing of the child is cut. -/
theorem Acyclic.compileBelow_child (ha : Acyclic t top) {node : Node}
    (hs : Simple t top (id :: path)) (hn : t.get? id = some node) {c : String}
    (hc : c ∈ node.children) (routes : Routes) :
    compileBelow routes t (id :: path) c = compile routes t c := by
  refine compileBelow_congr_path routes fun d hd => ?_
  simpa using ha.not_mem hs hn hc hd

/-- Without cycles, below every element stand all listed children that the design has, each with
its whole widget. -/
theorem Acyclic.children_whole (ha : Acyclic t top) {b : Branch} (hu : Unfolds t top b)
    (htop : top ∈ t.ids) (routes : Routes) {c : Branch} (hc : c ∈ b.all) {node : Node}
    (hn : c.path.head?.bind t.get? = some node) :
    c.children.map (fun d => some (d.widget routes)) = (listed t node).map (compile routes t) := by
  have hs : Simple t top c.path := (hu.mem_all_iff htop).mp ⟨c, hc, rfl⟩
  cases hpath : c.path with
  | nil => simp [hpath] at hn
  | cons id path =>
    rw [hpath, List.head?_cons, Option.bind_some] at hn
    rw [hpath] at hs
    have hpaths : c.children.map Branch.path = (listed t node).map (· :: id :: path) := by
      rw [(hu.follows c hc).children, hpath, ha.extensions_eq hs hn]
    have hwidget : ∀ d ∈ c.children,
        some (d.widget routes) = d.path.head?.bind (compile routes t) := by
      intro d hd
      obtain ⟨e, he, hde⟩ := List.mem_map.mp (hpaths ▸ List.mem_map_of_mem hd)
      have hchild : e ∈ node.children := (List.mem_filter.mp he).1
      have hfollows : ∀ f ∈ d.all, Follows t f := fun f hf =>
        hu.follows f (b.mem_all_trans hc (c.mem_all_trans (Branch.mem_all_child hd) hf))
      rw [← compileBelow_branch routes d hfollows hde.symm (ha.not_mem hs hn hchild .top), ← hde,
        ha.compileBelow_child hs hn hchild]
      rfl
    calc c.children.map (fun d => some (d.widget routes))
        = c.children.map (fun d => d.path.head?.bind (compile routes t)) :=
          List.map_congr_left hwidget
      _ = (c.children.map Branch.path).map (fun p => p.head?.bind (compile routes t)) := by
          rw [List.map_map]
          rfl
      _ = (listed t node).map (compile routes t) := by
          rw [hpaths, List.map_map]
          rfl

/-- Compiling a node gives the widget of what the design unfolds to from it: one tree, whose
elements are the simple paths from the node, and which is rendered without looking at paths. Where
child lists make no cycle, below every element stand all its listed children that the design has,
each with the whole widget that it has by itself. -/
theorem code_unfolded (routes : Routes) (t : DesignTree) (top : String) (indent : Nat) :
    ∃ unfolding : Option Branch,
      (∀ b, Unfolds t top b ↔ unfolding = some b) ∧
      (∀ path, (∃ b ∈ unfolding, ∃ c ∈ b.all, c.path = path) ↔ Simple t top path) ∧
      code routes t top indent =
        unfolding.elim "" (fun b => (b.widget routes).render indent) ∧
      (Acyclic t top → ∀ b ∈ unfolding, ∀ c ∈ b.all, ∀ node,
        c.path.head?.bind t.get? = some node →
          c.children.map (fun d => some (d.widget routes)) =
            (listed t node).map (compile routes t)) := by
  by_cases htop : top ∈ t.ids
  · obtain ⟨b, hpath, hb⟩ := exists_branch t [] top htop (by simp)
    have hu : Unfolds t top b := ⟨hpath, hb⟩
    have hcompile : compile routes t top = some (b.widget routes) :=
      compileBelow_branch routes b hb hpath (by simp)
    refine ⟨some b, fun c => ⟨fun hc => ?_, ?_⟩, fun path => ?_, ?_, ?_⟩
    · rw [branch_unique b (hpath.trans hc.path.symm) hb hc.follows]
    · rintro ⟨⟩
      exact hu
    · simpa using hu.mem_all_iff htop
    · simp only [code, hcompile, Option.elim_some]
    · rintro ha _ ⟨⟩ c hc node hn
      exact ha.children_whole hu htop routes hc hn
  · have hmissing : t.get? top = none := DesignTree.get?_eq_none_iff.mpr htop
    refine ⟨none, fun b => ⟨fun hb => ?_, fun he => by cases he⟩, fun path => ⟨?_, fun hs => ?_⟩, ?_,
      ?_⟩
    · obtain ⟨node, hn, _⟩ := (hb.follows b b.mem_all_self).node hb.path
      rw [hmissing] at hn
      cases hn
    · rintro ⟨b, hb, _⟩
      cases hb
    · exact absurd (hs.present top (List.mem_of_getLast? hs.start)) htop
    · simp only [code, compile, compileBelow_missing hmissing, Option.elim_none]
    · rintro _ b hb
      cases hb

/-- Ranks that grow along child lists leave no room for a cycle. -/
theorem acyclic_of_rank (rank : String → Nat)
    (h : ∀ node ∈ t.nodes, ∀ c ∈ node.children, rank node.id < rank c) (top : String) :
    Acyclic t top := by
  have hstep {id c : String} {node : Node} (hn : t.get? id = some node) (hc : c ∈ node.children) :
      rank id < rank c := by
    have hlt := h node (List.mem_of_find?_eq_some hn) c hc
    rwa [DesignTree.id_of_get? hn] at hlt
  have hgrows {a b : String} (hl : Linked t a b) : rank a ≤ rank b := by
    induction hl with
    | top => exact Nat.le_refl _
    | child _ hn hc ih => exact Nat.le_trans ih (Nat.le_of_lt (hstep hn hc))
  intro id node _ hn c hc hback
  have hlt := hstep hn hc
  have hle := hgrows hback
  omega

/-- Two lists that share a film; one of them stands on the page twice. -/
def shared : DesignTree := .ofList [
  { id := "ROOT", kind := .container, children := ["left", "right", "left"] },
  { id := "left", kind := .container, children := ["film"] },
  { id := "right", kind := .container, props := .ofList [("gap", .text "8px")],
    children := ["film", "lost", "film"] },
  { id := "film", kind := .text, props := .ofList [("text", .text "Film")] }]

theorem code_unfolded_shared :
    Acyclic shared "ROOT" ∧ ∃ b, Unfolds shared "ROOT" b ∧
      code {} shared "ROOT" 0 = (b.widget {}).render 0 ∧
      ∀ c ∈ b.all, ∀ node, c.path.head?.bind shared.get? = some node →
        c.children.map (fun d => some (d.widget {})) =
          (listed shared node).map (compile {} shared) := by
  have ha : Acyclic shared "ROOT" :=
    acyclic_of_rank (fun id => ["ROOT", "left", "right", "film", "lost"].idxOf id) (by decide) "ROOT"
  obtain ⟨unfolding, hunfolds, hpaths, hcode, hwhole⟩ := code_unfolded {} shared "ROOT" 0
  obtain ⟨b, hb, _⟩ := (hpaths ["ROOT"]).mpr (simple_top (by decide))
  obtain rfl : unfolding = some b := hb
  exact ⟨ha, b, (hunfolds b).mpr rfl, hcode, hwhole ha b rfl⟩

end Screenwright.Proofs.Unfolding
