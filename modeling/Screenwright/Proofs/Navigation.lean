import Mathlib.Data.List.Permutation
import Screenwright.Export.Request
import Screenwright.Proofs.Presses
import Screenwright.Proofs.Sources

namespace Screenwright.Proofs.Navigation
open Design Dart Flutter Screen Lexing Layout Identifiers Sources Presses Widgets Outcomes

/-- The paths of a map of routes, each with the class that it constructs. -/
def readRoutes : List Token → Option (List (String × String))
  | .closing '\x7d' :: _ => some []
  | .literal path :: .mark ':' :: .opening '(' :: .word "context" :: .closing ')' :: .mark '=' ::
      .mark '>' :: .word "const" :: .word cls :: .opening '(' :: .closing ')' :: .mark ',' :: ts =>
    (readRoutes ts).map ((path, cls) :: ·)
  | _ => none

/-- The routes of an entry point, which has one map of them. -/
def routesOf (ts : List Token) : Option (List (String × String)) :=
  match following "routes" ts with
  | [.mark ':' :: .opening '\x7b' :: map] => readRoutes map
  | _ => none

theorem className_ne {n : Name} {w : String} (h : w.toList.head? ≠ some 'S') : n.className ≠ w := by
  rintro rfl
  exact h (by simp [Name.className])

theorem presses_shown (routes : Routes) (t : DesignTree) :
    presses (shown routes t) = (buttons t).map fun b => targetOf routes b.props := by
  rw [buttons, ← presses_compileBelow, shown, Widget.compile]
  cases Widget.compileBelow routes t [] DesignTree.rootId <;> rfl

theorem acts_page (n : Name) {ts : List Token} {targets : List (Option String)}
    (h : Acts ts targets) :
    handlers (pageTokens n.className ts) = targets.map (fun t => some (.of t)) ∧
      navigations (pageTokens n.className ts) = (targets.filterMap id).map some ∧
      classes (pageTokens n.className ts) = [some n.className] := by
  have hclass : Acts [.word n.className] [] := by
    refine acts_quiet fun t ht hr => ?_
    rw [List.mem_singleton.mp ht] at hr
    simp only [reserved, List.mem_cons, Token.word.injEq, List.not_mem_nil, or_false] at hr
    rcases hr with hr | hr | hr <;> exact className_ne (by decide) hr
  have hmiddle : Acts pageMiddle [] := acts_quiet (by decide)
  have hframe : Acts pageFrame [] := acts_quiet (by decide)
  have hfoot : Acts pageFoot [] := acts_quiet (by decide)
  have hrest := (hclass.append hmiddle).append ((hclass.append hframe).append (h.append hfoot))
  obtain ⟨hh, hn, hc⟩ := hrest []
  rw [List.append_nil] at hh hn hc
  have hsplit : pageTokens n.className ts = pageHead ++ ([.word n.className] ++ pageMiddle ++
      ([.word n.className] ++ pageFrame ++ (ts ++ pageFoot))) := by
    simp [pageTokens]
  have hclasses (us : List Token) :
      classes (pageHead ++ (.word n.className :: us)) =
        some n.className :: classes (.word n.className :: us) := by
    simp [pageHead, classes, following, name?]
  rw [hsplit]
  refine ⟨?_, ?_, ?_⟩
  · have hhead (us : List Token) : handlers (pageHead ++ us) = handlers us := by
      simp [pageHead, handlers, following]
    rw [hhead, hh]
    simp [handlers, following]
  · have hhead (us : List Token) : navigations (pageHead ++ us) = navigations us := by
      simp [pageHead, navigations, following]
    rw [hhead, hn]
    simp [navigations, following]
  · exact (hclasses _).trans (congrArg (some n.className :: ·) hc)

theorem readRoutes_main (names : List Name) :
    readRoutes (names.flatMap routeTokens ++ mainFoot) =
      some (names.map fun n => (n.routePath, n.className)) := by
  induction names with
  | nil => rfl
  | cons n names ih =>
    rw [List.flatMap_cons, List.append_assoc]
    simp [routeTokens, readRoutes, ih]

theorem routesOf_main (title : String) (home : Name) (names : List Name) :
    routesOf (mainTokens title home.className names) =
      some (names.map fun n => (n.routePath, n.className)) := by
  have hname (n : Name) : "routes" ≠ n.className := (className_ne (by decide)).symm
  let front := mainHead ++ (names.flatMap importTokens ++ mainApp ++ .literal title ::
    (mainHome ++ [.word home.className, .opening '(', .closing ')', .mark ',']))
  let map := names.flatMap routeTokens ++ mainFoot
  have hfront : .word "routes" ∉ front := by
    simp [front, mainHead, importTokens, mainApp, mainHome, hname]
  have hmap : .word "routes" ∉ map := by
    simp [map, routeTokens, mainFoot, hname]
  have hsplit : mainTokens title home.className names =
      front ++ .word "routes" :: .mark ':' :: .opening '\x7b' :: map := by
    simp [mainTokens, front, map, mainRoutes]
  have hfollow : following "routes" (mainTokens title home.className names) =
      [.mark ':' :: .opening '\x7b' :: map] := by
    rw [hsplit, following_append_of_not_mem hfront]
    simp [following, following_eq_nil hmap]
  rw [routesOf, hfollow]
  exact readRoutes_main names

theorem navigations_main (title : String) (home : Name) (names : List Name) :
    navigations (mainTokens title home.className names) = [] := by
  have hname (n : Name) : "Navigator" ≠ n.className := (className_ne (by decide)).symm
  have hnone : .word "Navigator" ∉ mainTokens title home.className names := by
    simp [mainTokens, mainHead, importTokens, mainApp, mainHome, mainRoutes, routeTokens,
      mainFoot, hname]
  rw [navigations, following_eq_nil hnone, List.map_nil]

/-- What the handler of a button is, given the pages and the routes of the entry point. -/
structure Answers (project : Project) (ps : List Page) (map : List (String × String))
    (button : Node) (handler : Option Action) : Prop where
  /-- The label of a screen leads to the class that this screen's page declares. -/
  opens : ∀ (i : Nat) (target : Screen), project.screens[i]? = some target →
    button.props.get? "gotoScreen" = some (.text target.label) →
    ∃ (path cls : String) (p : Page) (ts : List Token),
      handler = some (.opens path) ∧ map.filter (·.1 = path) = [(path, cls)] ∧
        ps[i]? = some p ∧ lex p.source = some ts ∧ classes ts = [some cls]
  /-- Everything else leads nowhere. -/
  idle : (∀ target ∈ project.screens,
    button.props.get? "gotoScreen" ≠ some (.text target.label)) → handler = some .idle

theorem text?_eq_some {p : Props} {key s : String} :
    p.text? key = some s ↔ p.get? key = some (.text s) := by
  unfold Props.text?
  cases p.get? key with
  | none => simp
  | some v => cases v <;> simp [PropValue.text?]

theorem pathOf?_label {r : Routes} (h : (r.entries.map Route.label).Nodup) {e : Route}
    (he : e ∈ r.entries) : r.pathOf? e.label = some e.name.routePath := by
  rw [Routes.pathOf?, Keyed.find?_key h he, Option.map_some]

theorem pathOf?_eq_none {r : Routes} {label : String} (h : label ∉ r.entries.map Route.label) :
    r.pathOf? label = none := by
  rw [Routes.pathOf?, Option.map_eq_none_iff, List.find?_eq_none]
  intro e he hl
  exact h (List.mem_map.mpr ⟨e, he, by simpa using hl⟩)

def routeOf (e : Route) : String × String := (e.name.routePath, e.name.className)

theorem filter_routePath {labels : List String} {e : Route}
    (he : e ∈ (Routes.resolve labels).entries) :
    ((Routes.resolve labels).entries.map routeOf).filter (·.1 = e.name.routePath) =
      [routeOf e] := by
  have hkeys : (((Routes.resolve labels).entries.map routeOf).map Prod.fst).Nodup := by
    rw [List.map_map]
    exact RouteNames.routePaths_nodup labels
  exact Keyed.filter_key hkeys (List.mem_map_of_mem he)

theorem answers_button {project : Project} {ps : List Page} (hlabels : project.labels.Nodup)
    (hlen : ps.length = project.screens.length)
    (hpages : ∀ i screen p, project.screens[i]? = some screen → ps[i]? = some p →
      PageOf project i screen p) (button : Node) :
    Answers project ps (project.routes.entries.map routeOf) button
      (some (.of (targetOf project.routes button.props))) := by
  have hentries : project.routes.entries.map Route.label = project.labels := labels_routes project
  constructor
  · intro i target ht hgoto
    have hi : i < ps.length := hlen ▸ (List.getElem?_eq_some_iff.mp ht).1
    have hp := hpages i target ps[i] ht (List.getElem?_eq_getElem hi)
    have hmem := List.mem_of_getElem? hp.named
    have hpath : targetOf project.routes button.props = some ps[i].name.routePath := by
      rw [targetOf, text?_eq_some.mpr hgoto, Option.bind_some]
      exact pathOf?_label (hentries ▸ hlabels) hmem
    have hacts := acts_page ps[i].name (acts_tokens (regular_shown project.routes target.tree))
    exact ⟨_, _, ps[i], _, by rw [hpath]; rfl, filter_routePath hmem,
      List.getElem?_eq_getElem hi, hp.reads, hacts.2.2⟩
  · intro hnone
    have hpath : targetOf project.routes button.props = none := by
      rw [targetOf]
      cases hg : button.props.text? "gotoScreen" with
      | none => rfl
      | some label =>
        refine pathOf?_eq_none fun hl => ?_
        rw [hentries] at hl
        obtain ⟨target, ht, rfl⟩ := List.mem_map.mp hl
        exact hnone target ht (text?_eq_some.mp hg)
    rw [hpath]
    rfl

/-- A project's screens are those of its sources, and there is at least one. -/
theorem screens_parseAll {sources : List Source} {project : Project}
    (h : Project.parseAll sources = .ok project) :
    List.Forall₂ (fun source screen => Screen.parse source = .ok screen) sources project.screens ∧
      project.screens ≠ [] := by
  unfold Project.parseAll at h
  cases hs : sources.mapM Screen.parse with
  | error e => rw [hs] at h; cases h
  | ok screens =>
    rw [hs] at h
    have ho : Project.ofScreens screens = .ok project := h
    unfold Project.ofScreens at ho
    split at ho
    · cases ho
    · next hne =>
      cases ho
      exact ⟨mapM_ok_iff.mp hs, by simpa using hne⟩

theorem labels_parsed {sources : List Source} {screens : List Screen}
    (h : List.Forall₂ (fun source screen => Screen.parse source = .ok screen) sources screens) :
    screens.map Screen.label = sources.map Prod.fst := by
  induction h with
  | nil => rfl
  | @cons source screen sources screens hs _ ih =>
    have hl : screen.label = source.1 := by
      unfold Screen.parse at hs
      split at hs <;> cases hs
      rfl
    rw [List.map_cons, List.map_cons, ih, hl]

/-- How the pages of a project and its entry point fit together. -/
structure Navigable (project : Project) (ps : List Page) (main : List Token)
    (map : List (String × String)) : Prop where
  routes : routesOf main = some map
  still : navigations main = []
  length : ps.length = project.screens.length
  /-- The handlers of a page are those of the buttons that its design reaches, and there is no
  other navigation in it. -/
  pages : ∀ (i : Nat) (screen : Screen) (p : Page),
    project.screens[i]? = some screen → ps[i]? = some p →
    page project.routes screen p.name = .ok p ∧
    ∃ ts, lex p.source = some ts ∧
      List.Forall₂ (Answers project ps map) (buttons screen.tree) (handlers ts) ∧
      navigations ts = ((handlers ts).filterMap fun a => a.bind Action.path?).map some

/-- In a request whose documents all parse, every button that a page shows leads to the screen
that it names, or nowhere. -/
theorem buttons_navigate (title : String) (request : Export.Request) (project : Project)
    (h : Project.parseAll request.entries = .ok project) :
    List.Forall₂ (fun source screen => Screen.parse source = .ok screen) request.entries
      project.screens ∧
    ∃ ps main ts map, pages project.routes project = .ok ps ∧
      entryPoint title project.routes = .ok main ∧ lex main = some ts ∧
      Navigable project ps ts map := by
  obtain ⟨hscreens, hne⟩ := screens_parseAll h
  have hlabels : project.labels.Nodup := by
    rw [Project.labels, labels_parsed hscreens]
    exact request.nodup
  obtain ⟨ps, hps, hlen, hpages⟩ := pages_ok project
  have hentries := labels_routes project
  cases he : project.routes.entries with
  | nil =>
    rw [he] at hentries
    exact absurd (List.map_eq_nil_iff.mp hentries.symm) hne
  | cons home more =>
    obtain ⟨main, hmain, hlex⟩ := entryPoint_ok title he (clean_resolve project.labels)
    refine ⟨hscreens, ps, main, _, project.routes.entries.map routeOf, hps, hmain, hlex, ?_⟩
    refine ⟨?_, navigations_main _ _ _, hlen, fun i screen p hs hp => ?_⟩
    · rw [routesOf_main, List.map_map]
      rfl
    · have hpage := hpages i screen p hs hp
      obtain ⟨hh, hn, _⟩ := acts_page p.name (acts_tokens (regular_shown project.routes screen.tree))
      refine ⟨hpage.made, _, hpage.reads, ?_, ?_⟩
      · rw [hh, presses_shown, List.map_map, List.forall₂_map_right_iff]
        exact List.forall₂_same.mpr fun b _ => answers_button hlabels hlen hpages b
      · have hpath (t : Option String) : (some (Action.of t)).bind Action.path? = t := by
          cases t <;> rfl
        rw [hn, hh, List.filterMap_map]
        exact congrArg (List.map some) (List.filterMap_congr fun t _ => (hpath t).symm)

/-- Two screens whose labels make the same name; the button of each names the other. -/
def homes : Export.Request := .ofList [
  ("home", "\x7b\"ROOT\":\x7b\"type\":\"Button\",\"props\":\x7b\"gotoScreen\":\"Home\"\x7d\x7d\x7d"),
  ("Home", "\x7b\"ROOT\":\x7b\"type\":\"Button\",\"props\":\x7b\"gotoScreen\":\"home\"\x7d\x7d\x7d")]

theorem buttons_navigate_homes :
    ∃ project, Project.parseAll homes.entries = .ok project ∧
      project.labels.map project.routes.pathOf? = [some "/Home", some "/Home2"] ∧
      ∃ ps main ts map, pages project.routes project = .ok ps ∧
        entryPoint "Homes" project.routes = .ok main ∧ lex main = some ts ∧
        Navigable project ps ts map := by
  have hlabels : (Project.parseAll homes.entries).toOption.map Project.labels =
      some ["home", "Home"] := by cbv
  have hpaths : ["home", "Home"].map (Routes.resolve ["home", "Home"]).pathOf? =
      [some "/Home", some "/Home2"] := by decide +kernel
  cases hp : Project.parseAll homes.entries with
  | error e => simp [hp, Except.toOption] at hlabels
  | ok project =>
    have hl : project.labels = ["home", "Home"] := by simpa [hp, Except.toOption] using hlabels
    refine ⟨project, rfl, ?_, (buttons_navigate "Homes" homes project hp).2⟩
    rw [Project.routes, hl, hpaths]

end Screenwright.Proofs.Navigation
