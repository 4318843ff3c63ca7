import Screenwright.Proofs.Building
import Screenwright.Proofs.Navigation

namespace Screenwright.Proofs.Programs
open Files Flutter Screen Lexing Layout Identifiers Sources Presses Navigation Addresses Building

/-- The location that an address leads to by its spelling alone. -/
def destination (a : Address) : Location := (segments a.written).foldl stepFrom a.origin

def locate (path : String) : Location := destination (.ofText [] path)

/-- The location that a file refers to by an address of its own project; an address with a
scheme is not one. -/
def refer (file uri : String) : Option Location :=
  if ':' ∈ uri.toList then none else some (destination (.ofText (locate file).dropLast uri))

def uri? : List Token → Option String
  | .literal uri :: .mark ';' :: _ => some uri
  | _ => none

/-- The addresses that a file imports, in order. -/
def imports (ts : List Token) : List (Option String) := (following "import" ts).map uri?

def shownClass? : List Token → Option String
  | .mark ':' :: .word "const" :: .word cls :: .opening '(' :: .closing ')' :: .mark ',' :: _ =>
    some cls
  | _ => none

/-- The classes that a file names as its home. -/
def homeClasses (ts : List Token) : List (Option String) := (following "home" ts).map shownClass?

/-- Pages and an entry point that refer to each other in order, and to nothing that is missing
or declared twice. -/
structure Closed (ps : List Page) (main : List Token) (files : List (List Token))
    (map : List (String × String)) : Prop where
  read : ps.map (fun p => lex p.source) = files.map some
  routes : routesOf main = some map
  uris : none ∉ imports main
  /-- Each page is imported once, in order, and no other file of the project is. -/
  imported : (imports main).filterMap (·.bind (refer entryPath)) = ps.map fun p => locate p.path
  /-- Each page declares the class of its route, and nothing else. -/
  declared : List.Forall₂ (fun route ts => classes ts = [some route.2]) map files
  /-- No class is declared twice, in one file or in two. -/
  once : (classes main ++ files.flatMap classes).Nodup
  keys : (map.map Prod.fst).Nodup
  inner : "/" ∉ map.map Prod.fst
  home : homeClasses main = [map.head?.map Prod.snd]

theorem segments_spelt {path : String} {names : Location} (h : Spelt path names) :
    segments (Text.bytesOf path) = names.map .name := by
  have hbelow := segments_below (a := ⟨[], []⟩) h.proper
  have hstart : segments (slash :: Text.bytesOf path) = segments (Text.bytesOf path) := by
    simp [segments, splitSlashes]
  rw [below, List.nil_append, ← h.spelt, hstart] at hbelow
  simpa [segments, splitSlashes] using hbelow

theorem Spelt.isAbsolute {path : String} {names : Location} (h : Spelt path names) :
    isAbsolute (Text.bytesOf path) = false := by
  obtain ⟨n, more, rfl⟩ := List.exists_cons_of_ne_nil h.ne_nil
  have hw : Text.bytesOf path = n ++ more.flatMap (slash :: ·) := by simpa using h.spelt
  rw [hw]
  exact not_isAbsolute (h.proper n List.mem_cons_self) _

theorem destination_spelt {base names : Location} {path : String} (h : Spelt path names) :
    destination (.ofText base path) = base ++ names := by
  have horigin : (Address.ofText base path).origin = base := by
    simp [Address.origin, Address.ofText, Spelt.isAbsolute h]
  rw [destination, horigin, Address.ofText, segments_spelt h, foldl_stepFrom]

/-- A page lies where its import leads. -/
theorem refer_page {p : Page} (h : Clean p.name) :
    refer entryPath ("screens/" ++ p.name.fileName) = some (locate p.path) := by
  have hscreens : Spelt "screens" [Text.bytesOf "screens"] := spelt_name (by decide +kernel)
  have huri := hscreens.append (spelt_fileName h)
  have hstart : "screens" ++ "/" = "screens/" := rfl
  rw [hstart] at huri
  have hplain : ':' ∉ ("screens/" ++ p.name.fileName).toList := by
    rw [String.toList_append, List.mem_append, not_or]
    exact ⟨by decide, fun hc => absurd (h.isPlain_fileName _ hc) (by decide)⟩
  have hdir : (locate entryPath).dropLast = [Text.bytesOf "lib"] := by
    rw [locate, destination_spelt spelt_entryPath]
    rfl
  have hpage : locate p.path =
      [Text.bytesOf "lib", Text.bytesOf "screens", Text.bytesOf p.name.fileName] :=
    destination_spelt (spelt_page h)
  rw [refer, if_neg hplain, hdir, hpage, destination_spelt huri]
  rfl

theorem refer_library : refer entryPath "package:flutter/material.dart" = none := by
  decide

theorem imports_main (title : String) (home : Name) (names : List Name) :
    imports (mainTokens title home.className names) =
      some "package:flutter/material.dart" ::
        names.map fun n => some ("screens/" ++ n.fileName) := by
  have hname (n : Name) : "import" ≠ n.className := (className_ne (by decide)).symm
  let rest := mainApp ++ .literal title ::
    (mainHome ++ ([.word home.className] ++ mainRoutes ++
      (names.flatMap routeTokens ++ mainFoot ++ [])))
  have hrest : .word "import" ∉ rest := by
    simp [rest, mainApp, mainHome, mainRoutes, routeTokens, mainFoot, hname]
  have hlines : imports (names.flatMap importTokens ++ rest) =
      names.map fun n => some ("screens/" ++ n.fileName) := by
    generalize rest = rest at hrest
    induction names with
    | nil => simp [imports, following_eq_nil hrest]
    | cons n names ih =>
      rw [List.map_cons, ← ih]
      simp [imports, importTokens, following, uri?]
  have hsplit : mainTokens title home.className names =
      mainHead ++ (names.flatMap importTokens ++ rest) := by
    simp [mainTokens, rest]
  rw [hsplit, ← hlines]
  simp [imports, mainHead, following, uri?]

theorem homeClasses_main (title : String) (home : Name) (names : List Name) :
    homeClasses (mainTokens title home.className names) = [some home.className] := by
  have hname (n : Name) : "home" ≠ n.className := (className_ne (by decide)).symm
  let front := mainHead ++ (names.flatMap importTokens ++ mainApp ++ [.literal title, .mark ',',
    .word "debugShowCheckedModeBanner", .mark ':', .word "false", .mark ','])
  let rest := names.flatMap routeTokens ++ mainFoot
  have hfront : .word "home" ∉ front := by simp [front, mainHead, importTokens, mainApp]
  have hrest : .word "home" ∉ rest := by simp [rest, routeTokens, mainFoot, hname]
  have hsplit : mainTokens title home.className names =
      front ++ .word "home" :: .mark ':' :: .word "const" :: .word home.className ::
        (mainRoutes ++ rest) := by
    simp [mainTokens, front, rest, mainHome]
  rw [hsplit, homeClasses, following_append_of_not_mem hfront]
  simp [following, mainRoutes, following_eq_nil hrest, shownClass?, (hname home).symm]

theorem classes_main (title : String) (home : Name) (names : List Name) :
    classes (mainTokens title home.className names) = [some "MyApp"] := by
  have hname (n : Name) : "class" ≠ n.className := (className_ne (by decide)).symm
  have hhead : .word "class" ∉ mainHead ++ names.flatMap importTokens := by
    simp [mainHead, importTokens]
  have hrest : .word "class" ∉ .literal title ::
      (mainHome ++ ([.word home.className] ++ mainRoutes ++
        (names.flatMap routeTokens ++ mainFoot))) := by
    simp [mainHome, mainRoutes, routeTokens, mainFoot, hname]
  have hsplit : mainTokens title home.className names =
      mainHead ++ names.flatMap importTokens ++ (mainApp ++ .literal title ::
        (mainHome ++ ([.word home.className] ++ mainRoutes ++
          (names.flatMap routeTokens ++ mainFoot)))) := by
    simp [mainTokens]
  rw [hsplit, classes, following_append_of_not_mem hhead, following_append,
    following_eq_nil hrest]
  simp [mainApp, following, name?]

theorem base_ne_nil (labels : List String) :
    ∀ e ∈ (Routes.resolve labels).entries, e.name.base.toList ≠ [] := by
  refine RouteNames.forall_resolve (P := fun n => n.base.toList ≠ []) (fun label => ?_)
    (fun n k h => ?_) labels
  · simp only [Name.ofLabel]
    split
    · decide
    · next hbase => simpa using hbase
  · simp [Name.withSuffix, h]

theorem routePath_ne_root {n : Name} (h : n.base.toList ≠ []) : n.routePath ≠ "/" := by
  intro he
  refine h ?_
  simpa [Name.routePath] using congrArg String.toList he

theorem declares_page {project : Project} {i : Nat} {screen : Screen} {p : Page}
    (h : PageOf project i screen p) :
    ∃ ts, lex p.source = some ts ∧ classes ts = [some p.name.className] := by
  obtain ⟨_, _, hc⟩ := acts_page p.name (acts_tokens (regular_shown project.routes screen.tree))
  exact ⟨_, h.reads, hc⟩

/-- The imports of an entry point lead to the pages whose names it is made from. -/
theorem imported_pages (title : String) (home : Name) {ps : List Page}
    (h : ∀ p ∈ ps, Clean p.name) :
    (imports (mainTokens title home.className (ps.map Page.name))).filterMap
      (·.bind (refer entryPath)) = ps.map fun p => locate p.path := by
  rw [imports_main, List.filterMap_cons_none (by exact refer_library), List.map_map,
    List.filterMap_map, ← List.filterMap_eq_map]
  refine List.filterMap_congr fun p hp => ?_
  simp only [Function.comp_apply, Option.bind_some]
  exact refer_page (h p hp)

theorem files_pages {ps : List Page}
    (h : ∀ p ∈ ps, ∃ ts, lex p.source = some ts ∧ classes ts = [some p.name.className]) :
    ∃ files, ps.map (fun p => lex p.source) = files.map some ∧
      List.Forall₂ (fun p ts => classes ts = [some p.name.className]) ps files ∧
      files.flatMap classes = ps.map fun p => some p.name.className := by
  induction ps with
  | nil => exact ⟨[], rfl, .nil, rfl⟩
  | cons p ps ih =>
    obtain ⟨⟨ts, hts, hc⟩, hps⟩ := List.forall_mem_cons.mp h
    obtain ⟨files, hread, hall, hflat⟩ := ih hps
    exact ⟨ts :: files, by simp [hts, hread], .cons hc hall, by simp [hc, hflat]⟩

/-- The pages of a project and its entry point are a closed program, whatever its labels and its
designs are. -/
theorem program_closed (title : String) (first : Screen) (rest : List Screen) :
    let project : Project := ⟨first :: rest⟩
    ∃ ps main ts files map, pages project.routes project = .ok ps ∧
      entryPoint title project.routes = .ok main ∧ lex main = some ts ∧
      ps.map Page.label = project.labels ∧ Closed ps ts files map := by
  intro project
  obtain ⟨ps, hps, hlen, hpages⟩ := pages_ok project
  have hentries := entries_pages hlen hpages
  have hnames : project.routes.entries.map Route.name = ps.map Page.name := by
    rw [hentries, List.map_map]
    rfl
  have hmem {p : Page} (hp : p ∈ ps) : (⟨p.label, p.name⟩ : Route) ∈ project.routes.entries :=
    hentries ▸ List.mem_map_of_mem hp
  have hdeclares : ∀ p ∈ ps,
      ∃ ts, lex p.source = some ts ∧ classes ts = [some p.name.className] := by
    intro p hp
    obtain ⟨i, hi, rfl⟩ := List.getElem_of_mem hp
    have hs : i < project.screens.length := hlen ▸ hi
    exact declares_page (hpages i _ _ (List.getElem?_eq_getElem hs) (List.getElem?_eq_getElem hi))
  obtain ⟨files, hread, hall, hflat⟩ := files_pages hdeclares
  obtain ⟨home, more, hcons⟩ : ∃ home more, ps = home :: more :=
    List.exists_cons_of_ne_nil fun hnil => by simp [hnil, project] at hlen
  have hfirst : project.routes.entries = ⟨home.label, home.name⟩ ::
      more.map fun p => ⟨p.label, p.name⟩ := by
    rw [hentries, hcons, List.map_cons]
  obtain ⟨main, hmain, hlex⟩ := entryPoint_ok title hfirst (clean_resolve project.labels)
  rw [hnames] at hlex
  let map := ps.map fun p => (p.name.routePath, p.name.className)
  refine ⟨ps, main, _, files, map, hps, hmain, hlex, labels_pages hentries, ?_⟩
  constructor
  case read => exact hread
  case routes =>
    rw [routesOf_main, List.map_map]
    rfl
  case uris => simp [imports_main]
  case imported =>
    exact imported_pages title home.name fun p hp => clean_resolve project.labels _ (hmem hp)
  case declared => exact (List.forall₂_map_left_iff).mpr hall
  case once =>
    have hclasses := RouteNames.classNames_nodup project.labels
    rw [← Project.routes, hentries, List.map_map, ← List.nodup_map_iff (Option.some_injective _),
      List.map_map] at hclasses
    rw [classes_main, hflat]
    refine List.nodup_cons.mpr ⟨fun hm => ?_, hclasses⟩
    obtain ⟨p, _, he⟩ := List.mem_map.mp hm
    exact className_ne (by decide) (Option.some.inj he)
  case keys =>
    have hpaths := RouteNames.routePaths_nodup project.labels
    rw [← Project.routes, hentries, List.map_map] at hpaths
    rwa [List.map_map]
  case inner =>
    intro hroot
    rw [List.map_map] at hroot
    obtain ⟨p, hp, he⟩ := List.mem_map.mp hroot
    exact routePath_ne_root (base_ne_nil project.labels _ (hmem hp)) he
  case home =>
    rw [homeClasses_main]
    simp [map, hcons]

end Screenwright.Proofs.Programs
