import Screenwright.Proofs.Locality
import Screenwright.Proofs.Navigation

namespace Screenwright.Proofs.Extensions
open Design Dart Flutter Screen Widget Widgets Lexing Layout Sources Presses Navigation

variable {r r' : Routes} {label : String}

theorem entries_foldl (labels : List String) (r : Routes) :
    r.entries <+: (labels.foldl Routes.add r).entries := by
  induction labels generalizing r with
  | nil => exact List.prefix_refl _
  | cons label labels ih => exact (List.prefix_append _ _).trans (ih (r.add label))

/-- Names that are settled stay as they are while more labels come. -/
theorem entries_append (xs ys : List String) :
    (Routes.resolve xs).entries <+: (Routes.resolve (xs ++ ys)).entries := by
  rw [Routes.resolve, Routes.resolve, List.foldl_append]
  exact entries_foldl ys _

theorem renames_of_grown (h : r.entries <+: r'.entries) : r.renames <+: r'.renames := h.filterMap _

theorem pathOf?_of_grown (h : r.entries <+: r'.entries) (hl : label ∈ r.entries.map Route.label) :
    r'.pathOf? label = r.pathOf? label := by
  obtain ⟨more, hmore⟩ := h
  obtain ⟨e, he, rfl⟩ := List.mem_map.mp hl
  have hfound : (r.entries.find? (·.label = e.label)).isSome :=
    List.find?_isSome.mpr ⟨e, he, by simp⟩
  rw [Routes.pathOf?, Routes.pathOf?, ← hmore, List.find?_append, Option.or_of_isSome hfound]

theorem pathOf?_isSome (h : label ∈ r.entries.map Route.label) : (r.pathOf? label).isSome := by
  obtain ⟨e, he, rfl⟩ := List.mem_map.mp h
  rw [Routes.pathOf?, Option.isSome_map]
  exact List.find?_isSome.mpr ⟨e, he, by simp⟩

/-- Only the buttons that compiling reaches look at the routes. -/
theorem compileBelow_routes {t : DesignTree} {path : List String} {id : String}
    (h : ∀ node label, Reached t path id node → Locality.targetOf node = some label →
      r.pathOf? label = r'.pathOf? label) :
    compileBelow r t path id = compileBelow r' t path id := by
  induction path, id using compileBelow.induct r t with
  | case1 path id hmissing => rw [compileBelow_missing hmissing, compileBelow_missing hmissing]
  | case2 path id node _ hp => rw [compileBelow_repeated hp, compileBelow_repeated hp]
  | case3 path id node hn hp ih =>
    have hchildren :
        childrenBelow r t (id :: path) node = childrenBelow r' t (id :: path) node := by
      by_cases hk : node.kind = .container
      · simp only [childrenBelow, hk]
        refine List.filterMap_congr fun c hc => ih c fun found label hf => ?_
        exact h found label (.under hn hp hk hc hf)
      · rw [childrenBelow_leaf hk, childrenBelow_leaf hk]
    rw [compileBelow_node hn hp, compileBelow_node hn hp, hchildren,
      Locality.element_routes fun label => h node label (.here hn hp)]

def extended (project : Project) (added : List Screen) : Project := ⟨project.screens ++ added⟩

/-- A button that the root of a design reaches names a screen that only the added ones have. -/
def NamesAdded (project : Project) (added : List Screen) (t : DesignTree) : Prop :=
  ∃ button label, Reached t [] DesignTree.rootId button ∧ button.kind = .button ∧
    button.props.get? "gotoScreen" = some (.text label) ∧ label ∉ project.labels ∧
    label ∈ added.map Screen.label

/-- A page of a project, and that of the same screen once the project has been extended. -/
structure Kept (project : Project) (added : List Screen) (screen : Screen) (p p' : Page) :
    Prop where
  label : p'.label = p.label
  /-- The file, the class and the path of a screen are made of its name. -/
  name : p'.name = p.name
  source : p'.source = p.source ↔ ¬ NamesAdded project added screen.tree

variable {project : Project} {added : List Screen} {screen : Screen} {p p' : Page}

theorem labels_extended :
    (extended project added).labels = project.labels ++ added.map Screen.label :=
  List.map_append

theorem entries_extended (project : Project) (added : List Screen) :
    project.routes.entries <+: (extended project added).routes.entries := by
  rw [Project.routes, Project.routes, labels_extended]
  exact entries_append _ _

/-- Labels that are known lead where they led, and unknown ones that do not come in stay unknown. -/
theorem pathOf?_extended (h : label ∈ project.labels ∨ label ∉ added.map Screen.label) :
    project.routes.pathOf? label = (extended project added).routes.pathOf? label := by
  by_cases hl : label ∈ project.labels
  · exact (pathOf?_of_grown (entries_extended project added)
      (by rwa [labels_routes])).symm
  · have hadded := h.resolve_left hl
    rw [pathOf?_eq_none (by rwa [labels_routes]), pathOf?_eq_none]
    rw [labels_routes]
    exact fun hm => (List.mem_append.mp (labels_extended ▸ hm)).elim hl hadded

theorem body_extended (h : ¬ NamesAdded project added screen.tree) :
    body project.routes screen.tree = body (extended project added).routes screen.tree := by
  have hcompile : Widget.compile project.routes screen.tree DesignTree.rootId =
      Widget.compile (extended project added).routes screen.tree DesignTree.rootId := by
    refine compileBelow_routes fun node label hreached htarget => pathOf?_extended ?_
    by_cases hl : label ∈ project.labels
    · exact .inl hl
    · refine .inr fun hadded => h ⟨node, label, hreached, ?_⟩
      unfold Locality.targetOf at htarget
      split at htarget
      · next hk => exact ⟨hk, text?_eq_some.mp htarget, hl, hadded⟩
      · cases htarget
  rw [body, body, hcompile]

/-- What the handlers of a page open is there to be read in its source. -/
theorem targets_of_source {i j : Nat} {project' : Project} (h : PageOf project i screen p)
    (h' : PageOf project' j screen p') (hs : p'.source = p.source) :
    ∀ b ∈ buttons screen.tree,
      targetOf project.routes b.props = targetOf project'.routes b.props := by
  have hread (routes : Routes) (n : Name) :
      handlers (pageTokens n.className (tokens (shown routes screen.tree))) =
        (buttons screen.tree).map fun b => some (Action.of (targetOf routes b.props)) := by
    rw [(acts_page n (acts_tokens (regular_shown routes screen.tree))).1, presses_shown,
      List.map_map]
    rfl
  have htokens := h'.reads
  rw [hs, h.reads, Option.some.injEq] at htokens
  have hsame := congrArg handlers htokens
  rw [hread, hread] at hsame
  intro b hb
  have haction := List.map_inj_left.mp hsame b hb
  revert haction
  cases targetOf project.routes b.props <;> cases targetOf project'.routes b.props <;>
    simp [Action.of]

theorem kept_extended {i : Nat} (h : PageOf project i screen p)
    (h' : PageOf (extended project added) i screen p') : Kept project added screen p p' := by
  have hname : p'.name = p.name := by
    obtain ⟨hi, hentry⟩ := List.getElem?_eq_some_iff.mp h.named
    have hkept := List.prefix_iff_getElem?.mp (entries_extended project added) i hi
    rw [hentry, h'.named] at hkept
    simpa using hkept
  refine ⟨h'.label.trans h.label.symm, hname, fun hs => ?_, fun hnone => ?_⟩
  · rintro ⟨button, label, hreached, hk, hgoto, hunknown, hadded⟩
    have hbutton : button ∈ buttons screen.tree :=
      List.mem_filter.mpr ⟨mem_visits_iff.mpr hreached, by simp [isButton, hk]⟩
    have hsame := targets_of_source h h' hs button hbutton
    simp only [targetOf, text?_eq_some.mpr hgoto, Option.bind_some] at hsame
    rw [pathOf?_eq_none (by rwa [labels_routes])] at hsame
    have hknown : ((extended project added).routes.pathOf? label).isSome := by
      apply pathOf?_isSome
      rw [labels_routes, ← Project.labels, labels_extended]
      exact List.mem_append_right _ hadded
    rw [← hsame] at hknown
    cases hknown
  · have hmade := h'.made
    rw [hname, page, ← body_extended hnone, ← page, h.made] at hmade
    cases hmade
    rfl

/-- Labels at the end change nothing of what the labels in front of them are given. So all screens
of a project keep their names when it is extended at its end, and a page keeps its source exactly if
no button that its root reaches names one of the added screens by a label that was not there before.
-/
theorem screens_extended (xs ys : List String) (project : Project) (added : List Screen) :
    (Routes.resolve xs).entries <+: (Routes.resolve (xs ++ ys)).entries ∧
      (Routes.resolve xs).renames <+: (Routes.resolve (xs ++ ys)).renames ∧
      (∀ label ∈ xs, (Routes.resolve (xs ++ ys)).pathOf? label =
        (Routes.resolve xs).pathOf? label) ∧
      ∃ ps ps', pages project.routes project = .ok ps ∧
        pages (extended project added).routes (extended project added) = .ok ps' ∧
        ∀ (i : Nat) (screen : Screen), project.screens[i]? = some screen →
          ∃ p p', ps[i]? = some p ∧ ps'[i]? = some p' ∧ Kept project added screen p p' := by
  have hentries := entries_append xs ys
  obtain ⟨ps, hps, hlen, hpages⟩ := pages_ok project
  obtain ⟨ps', hps', hlen', hpages'⟩ := pages_ok (extended project added)
  refine ⟨hentries, renames_of_grown hentries, fun label hl => ?_, ps, ps', hps, hps', ?_⟩
  · exact pathOf?_of_grown hentries (by rwa [RouteNames.labels_resolve])
  · intro i screen hs
    have hi := (List.getElem?_eq_some_iff.mp hs).1
    have hs' : (extended project added).screens[i]? = some screen := by
      rw [extended, List.getElem?_append_left hi, hs]
    have hi' := (List.getElem?_eq_some_iff.mp hs').1
    have hp := List.getElem?_eq_getElem (hlen ▸ hi)
    have hp' := List.getElem?_eq_getElem (hlen' ▸ hi')
    exact ⟨_, _, hp, hp', kept_extended (hpages i screen _ hs hp) (hpages' i screen _ hs' hp')⟩

end Screenwright.Proofs.Extensions
