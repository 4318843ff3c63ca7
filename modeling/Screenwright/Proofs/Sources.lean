import Screenwright.Flutter.Source
import Screenwright.Proofs.Brackets
import Screenwright.Proofs.Identifiers
import Screenwright.Proofs.Outcomes
import Screenwright.Proofs.Widgets

namespace Screenwright.Proofs.Sources
open Design Dart Flutter Screen Template Lexing Layout Brackets Widgets Identifiers Outcomes

/-- Pieces of a template that render to a text made of the given tokens. -/
def Fills (template : String) (data : Json.Value) (pieces : List Piece) (ts : List Token) : Prop :=
  ∀ before, ∃ text, renderPieces template data before pieces = .ok text ∧ Seals text ts

variable {template : String} {data : Json.Value} {pieces : List Piece} {ts us vs : List Token}

theorem renderPieces_cons {before s rest : String} {p : Piece}
    (hp : renderPiece template (placeAfter before) data p.content = .ok s)
    (hr : renderPieces template data (before ++ p.written) pieces = .ok rest) :
    renderPieces template data before (p :: pieces) = .ok (s ++ rest) := by
  rw [renderPieces, hp]
  exact congrArg (Except.map (s ++ ·)) hr

theorem Fills.nil : Fills template data [] [] := fun _ => ⟨"", rfl, .empty⟩

theorem Fills.cons {p : Piece} {s : String}
    (hp : ∀ place, renderPiece template place data p.content = .ok s) (hs : Seals s us)
    (h : Fills template data pieces ts) : Fills template data (p :: pieces) (us ++ ts) := by
  intro before
  obtain ⟨rest, hr, hrest⟩ := h (before ++ p.written)
  exact ⟨s ++ rest, renderPieces_cons (hp _) hr, hs.append hrest⟩

theorem Fills.plain {cs : List Char} (hs : scan .gap cs = some (us, .gap))
    (h : Fills template data pieces ts) :
    Fills template data (.plain (String.ofList cs) :: pieces) (us ++ ts) :=
  .cons (fun _ => rfl) (.of_scan hs) h

theorem Fills.quoted {name s : String} (hm : data.member? name = some (.string s))
    (h : Fills template data pieces ts) :
    Fills template data (.call "dart_string" name :: pieces) (.literal s :: ts) := by
  have hp (place : Nat × Nat) :
      renderPiece template place data (Piece.call "dart_string" name).content = .ok (quote s) := by
    simp [renderPiece, Piece.call, Helper.ofName?, Helper.apply, argumentText, hm]
  exact .cons hp (seals_quote s) h

theorem renderPiece_field {name s : String} (hm : data.member? name = some (.string s))
    (place : Nat × Nat) :
    renderPiece template place data (Piece.field name).content = .ok s := by
  simp [renderPiece, Piece.field, hm, display]

/-- A field may end in a word, if what follows it does not continue the word. -/
theorem Fills.field {name s : String} {c : Char} {cs : List Char}
    (hm : data.member? name = some (.string s)) (hs : Reads s us) (hc : isWordChar c = false)
    (hcs : scan .gap (c :: cs) = some (vs, .gap)) (h : Fills template data pieces ts) :
    Fills template data (.field name :: .plain (String.ofList (c :: cs)) :: pieces)
      (us ++ vs ++ ts) := by
  intro before
  let written := before ++ (Piece.field name).written
  obtain ⟨rest, hr, hrest⟩ := h (written ++ (Piece.plain (String.ofList (c :: cs))).written)
  refine ⟨s ++ (String.ofList (c :: cs) ++ rest), ?_, ?_⟩
  · exact renderPieces_cons (renderPiece_field hm _) (renderPieces_cons rfl hr)
  · simpa [String.append_assoc] using (hs.append_seals hc hcs).append hrest

theorem renderSource_ok {fields : List (String × String)} (hp : builtin.get? template = some pieces)
    (h : Fills template (.object (fields.map fun e => (e.1, .string e.2))) pieces ts) :
    ∃ source, renderSource template fields = .ok source ∧ Seals source ts := by
  obtain ⟨source, hr, hs⟩ := h ""
  refine ⟨source, ?_, hs⟩
  simp [renderSource, Library.render, hp, hr, Except.mapError]

def pageHead : List Token :=
  [.word "import", .literal "package:flutter/material.dart", .mark ';', .word "class"]

def pageMiddle : List Token :=
  [.word "extends", .word "StatelessWidget", .opening '\x7b', .word "const"]

def pageFrame : List Token :=
  [.opening '(', .opening '\x7b', .word "super", .mark '.', .word "key", .closing '\x7d',
    .closing ')', .mark ';', .mark '@', .word "override", .word "Widget", .word "build",
    .opening '(', .word "BuildContext", .word "context", .closing ')', .opening '\x7b',
    .word "return", .word "Scaffold", .opening '(', .word "body", .mark ':', .word "SafeArea",
    .opening '(', .word "child", .mark ':', .word "Padding", .opening '(', .word "padding",
    .mark ':', .word "const", .word "EdgeInsets", .mark '.', .word "all", .opening '(',
    .word "16", .closing ')', .mark ',', .word "child", .mark ':']

def pageFoot : List Token :=
  [.mark ',', .closing ')', .mark ',', .closing ')', .mark ',', .closing ')', .mark ';',
    .closing '\x7d', .closing '\x7d']

/-- The tokens of a page: a class whose widget is in a frame. -/
def pageTokens (cls : String) (body : List Token) : List Token :=
  pageHead ++ ([.word cls] ++ pageMiddle ++ ([.word cls] ++ pageFrame ++ (body ++ pageFoot ++ [])))

set_option maxRecDepth 4000 in
theorem renderSource_page {cls body : String} (hc : Reads cls [.word cls]) (hb : Reads body ts) :
    ∃ source, renderSource "screen" [("class_name", cls), ("body", body)] = .ok source ∧
      Seals source (pageTokens cls ts) := by
  have hpieces : builtin.get? "screen" = some screenPage := rfl
  refine renderSource_ok hpieces ?_
  exact .plain rfl (.field rfl hc rfl rfl (.field rfl hc rfl rfl (.field rfl hb rfl rfl .nil)))

def importTokens (n : Name) : List Token :=
  [.word "import", .literal ("screens/" ++ n.fileName), .mark ';']

def routeTokens (n : Name) : List Token :=
  [.literal n.routePath, .mark ':', .opening '(', .word "context", .closing ')', .mark '=',
    .mark '>', .word "const", .word n.className, .opening '(', .closing ')', .mark ',']

theorem seals_import {n : Name} (h : Clean n) : Seals (importLine n) (importTokens n) := by
  have hline : Seals ("import 'screens/" ++ n.fileName ++ "';")
      ([.word "import"] ++ .literal ("screens/" ++ n.fileName) :: [.mark ';']) :=
    seals_inserted h.isPlain_fileName rfl rfl
  exact hline

theorem seals_route {n : Name} (h : Clean n) : Seals (routeLine n) (routeTokens n) := by
  have harrow : Seals ": (context) => const "
      [.mark ':', .opening '(', .word "context", .closing ')', .mark '=', .mark '>',
        .word "const"] := .of_scan rfl
  have hcall : Seals (n.className ++ "(),")
      ([.word n.className] ++ [.opening '(', .closing ')', .mark ',']) :=
    h.reads_className.append_seals rfl rfl
  have hline := (((seals_pad 8).append (seals_quote n.routePath)).append harrow).append hcall
  rw [← String.append_assoc] at hline
  exact hline

theorem seals_lines_joined {texts : List String} {tss : List (List Token)}
    (h : List.Forall₂ Seals texts tss) : Seals ("\n".intercalate texts) tss.flatten := by
  induction h with
  | nil => exact .empty
  | @cons text ts texts tss ht hts ih =>
    cases hts with
    | nil => simpa using ht
    | cons hu hus =>
      have hbreak : Seals "\n" [] := .of_scan rfl
      rw [String.intercalate_cons_cons]
      simpa using (ht.append hbreak).append ih

theorem seals_each {α : Type} {f : α → String} {g : α → List Token} {xs : List α}
    (h : ∀ x ∈ xs, Seals (f x) (g x)) : List.Forall₂ Seals (xs.map f) (xs.map g) := by
  induction xs with
  | nil => exact .nil
  | cons x xs ih =>
    obtain ⟨hx, hxs⟩ := List.forall_mem_cons.mp h
    exact .cons hx (ih hxs)

def mainHead : List Token := [.word "import", .literal "package:flutter/material.dart", .mark ';']

def mainApp : List Token :=
  [.word "void", .word "main", .opening '(', .closing ')', .opening '\x7b', .word "runApp",
    .opening '(', .word "const", .word "MyApp", .opening '(', .closing ')', .closing ')', .mark ';',
    .closing '\x7d', .word "class", .word "MyApp", .word "extends", .word "StatelessWidget",
    .opening '\x7b', .word "const", .word "MyApp", .opening '(', .opening '\x7b', .word "super",
    .mark '.', .word "key", .closing '\x7d', .closing ')', .mark ';', .mark '@', .word "override",
    .word "Widget", .word "build", .opening '(', .word "BuildContext", .word "context",
    .closing ')', .opening '\x7b', .word "return", .word "MaterialApp", .opening '(',
    .word "title", .mark ':']

def mainHome : List Token :=
  [.mark ',', .word "debugShowCheckedModeBanner", .mark ':', .word "false", .mark ',',
    .word "home", .mark ':', .word "const"]

def mainRoutes : List Token :=
  [.opening '(', .closing ')', .mark ',', .word "routes", .mark ':', .opening '\x7b']

def mainFoot : List Token :=
  [.closing '\x7d', .mark ',', .closing ')', .mark ';', .closing '\x7d', .closing '\x7d']

/-- The tokens of the entry point: imports, an application, and a map with its routes. -/
def mainTokens (title home : String) (names : List Name) : List Token :=
  mainHead ++ (names.flatMap importTokens ++ mainApp ++ .literal title ::
    (mainHome ++ ([.word home] ++ mainRoutes ++ (names.flatMap routeTokens ++ mainFoot ++ []))))

set_option maxRecDepth 4000 in
theorem renderSource_main (title : String) {imports home routes : String} {is rs : List Token}
    (hi : Seals imports is) (hh : Reads home [.word home]) (hr : Seals routes rs) :
    ∃ source, renderSource "main"
        [("title", title), ("imports", imports), ("home_class", home), ("routes", routes)] =
          .ok source ∧
      Seals source (mainHead ++ (is ++ mainApp ++ .literal title ::
        (mainHome ++ ([.word home] ++ mainRoutes ++ (rs ++ mainFoot ++ []))))) := by
  have hpieces : builtin.get? "main" = some mainFile := rfl
  refine renderSource_ok hpieces ?_
  exact .plain rfl (.field rfl hi.reads rfl rfl (.quoted rfl
    (.plain rfl (.field rfl hh rfl rfl (.field rfl hr.reads rfl rfl .nil)))))

def shown (routes : Routes) (tree : DesignTree) : Expr :=
  (Widget.compile routes tree DesignTree.rootId).getD Widget.nothing

theorem regular_shown (routes : Routes) (tree : DesignTree) : Regular (shown routes tree) := by
  unfold shown
  cases h : Widget.compile routes tree DesignTree.rootId with
  | none => exact regular_nothing
  | some e => exact regular_compileBelow routes tree [] _ e h

theorem body_eq (routes : Routes) (tree : DesignTree) :
    body routes tree = (shown routes tree).render bodyColumn := by
  unfold body shown
  cases Widget.compile routes tree DesignTree.rootId <;> rfl

theorem page_ok (routes : Routes) (screen : Screen) {n : Name} (h : Clean n) :
    ∃ source, page routes screen n = .ok ⟨screen.label, n, source⟩ ∧
      Seals source (pageTokens n.className (tokens (shown routes screen.tree))) := by
  have hbody := (regular_shown routes screen.tree).reads bodyColumn
  rw [← body_eq] at hbody
  obtain ⟨source, hr, hs⟩ := renderSource_page h.reads_className hbody
  exact ⟨source, by rw [page, hr]; rfl, hs⟩

theorem labels_routes (project : Project) :
    project.routes.entries.map Route.label = project.screens.map Screen.label :=
  RouteNames.labels_resolve project.labels

theorem nameFor_eq {project : Project} {screen : Screen} {i : Nat}
    (h : project.screens[i]? = some screen) :
    ∃ e, project.routes.entries[i]? = some e ∧ e.label = screen.label ∧
      nameFor project.routes screen i = e.name := by
  have hi := congrArg (fun labels => labels[i]?) (labels_routes project)
  simp only [List.getElem?_map, h, Option.map_some] at hi
  obtain ⟨e, he, hl⟩ := Option.map_eq_some_iff.mp hi
  exact ⟨e, he, hl, by simp [nameFor, Routes.nameAt?, he]⟩

/-- What a screen's page has to be. -/
structure PageOf (project : Project) (i : Nat) (screen : Screen) (p : Page) : Prop where
  made : page project.routes screen p.name = .ok p
  label : p.label = screen.label
  named : project.routes.entries[i]? = some ⟨screen.label, p.name⟩
  reads : lex p.source =
    some (pageTokens p.name.className (tokens (shown project.routes screen.tree)))

theorem pages_ok (project : Project) :
    ∃ ps, pages project.routes project = .ok ps ∧ ps.length = project.screens.length ∧
      ∀ i screen p, project.screens[i]? = some screen → ps[i]? = some p →
        PageOf project i screen p := by
  have hpage : ∀ s ∈ project.screens.zipIdx,
      ∃ p, page project.routes s.1 (nameFor project.routes s.1 s.2) = .ok p ∧
        PageOf project s.2 s.1 p := by
    rintro ⟨screen, i⟩ hs
    obtain ⟨⟨label, n⟩, he, rfl, hn⟩ := nameFor_eq (List.mem_zipIdx_iff_getElem?.mp hs)
    have hclean := clean_resolve project.labels _ (List.mem_of_getElem? he)
    obtain ⟨source, hp, hr⟩ := page_ok project.routes screen hclean
    refine ⟨⟨screen.label, n, source⟩, ?_, ⟨hp, rfl, he, hr.lex_eq⟩⟩
    rw [hn]
    exact hp
  obtain ⟨ps, hps, hall⟩ := mapM_ok hpage
  refine ⟨ps, hps, by simpa using hall.length_eq.symm, fun i screen p hs hp => ?_⟩
  obtain ⟨hi, rfl⟩ := List.getElem?_eq_some_iff.mp hp
  obtain ⟨hj, rfl⟩ := List.getElem?_eq_some_iff.mp hs
  have := hall.get (i := i) (by simpa using hj) hi
  simpa using this

theorem entries_pages {project : Project} {ps : List Page}
    (hlen : ps.length = project.screens.length)
    (hpages : ∀ i screen p, project.screens[i]? = some screen → ps[i]? = some p →
      PageOf project i screen p) :
    project.routes.entries = ps.map fun p => ⟨p.label, p.name⟩ := by
  have hroutes : project.routes.entries.length = project.screens.length := by
    simpa using congrArg List.length (labels_routes project)
  refine List.ext_getElem (by simp [hlen, hroutes]) fun i hi hj => ?_
  have hip : i < ps.length := by simpa using hj
  have his : i < project.screens.length := hlen ▸ hip
  have hpage := hpages i project.screens[i] ps[i] (List.getElem?_eq_getElem his)
    (List.getElem?_eq_getElem hip)
  obtain ⟨_, hentry⟩ := List.getElem?_eq_some_iff.mp hpage.named
  simp [hentry, hpage.label]

theorem labels_pages {project : Project} {ps : List Page}
    (h : project.routes.entries = ps.map fun p => ⟨p.label, p.name⟩) :
    ps.map Page.label = project.labels := by
  have hlabels := labels_routes project
  rw [h, List.map_map] at hlabels
  exact hlabels

theorem entryPoint_ok (title : String) {routes : Routes} {home : Route} {more : List Route}
    (he : routes.entries = home :: more) (hc : ∀ e ∈ routes.entries, Clean e.name) :
    ∃ main, entryPoint title routes = .ok main ∧
      lex main = some (mainTokens title home.name.className (routes.entries.map Route.name)) := by
  have hhome : routes.home? = some home.name := by simp [Routes.home?, Routes.nameAt?, he]
  have hnames : ∀ n ∈ routes.entries.map Route.name, Clean n := List.forall_mem_map.mpr hc
  have himports := seals_lines_joined (seals_each fun n hn => seals_import (hnames n hn))
  have hroutes := seals_lines_joined (seals_each fun n hn => seals_route (hnames n hn))
  have hclean := hc home (he ▸ List.mem_cons_self)
  obtain ⟨main, hr, hs⟩ := renderSource_main title himports hclean.reads_className hroutes
  refine ⟨main, ?_, hs.lex_eq⟩
  rw [entryPoint, hhome]
  exact hr

theorem level_page (cls : String) (h : Level ts) : Level (pageTokens cls ts) := by
  intro awaited
  let inner := [')', ')', ')', '\x7d', '\x7d'] ++ awaited
  have hframe :
      nest awaited (pageHead ++ ([.word cls] ++ pageMiddle ++ ([.word cls] ++ pageFrame))) =
        some inner := by
    simp [pageHead, pageMiddle, pageFrame, nest, partner, inner]
  have hfoot : nest inner pageFoot = some awaited := by
    simp [pageFoot, nest, inner]
  have hsplit : pageTokens cls ts =
      pageHead ++ ([.word cls] ++ pageMiddle ++ ([.word cls] ++ pageFrame)) ++
        (ts ++ pageFoot) := by
    simp [pageTokens]
  rw [hsplit, nest_append, hframe, Option.bind_some, nest_append, h, Option.bind_some, hfoot]

theorem level_flatMap {α : Type} {f : α → List Token} {xs : List α} (h : ∀ x ∈ xs, Level (f x)) :
    Level (xs.flatMap f) := by
  induction xs with
  | nil => exact .nil
  | cons x xs ih =>
    obtain ⟨hx, hxs⟩ := List.forall_mem_cons.mp h
    exact hx.append (ih hxs)

theorem level_main (title home : String) (names : List Name) :
    Level (mainTokens title home names) := by
  have himports : Level (names.flatMap importTokens) := level_flatMap fun n _ => fun _ => rfl
  have hroutes : Level (names.flatMap routeTokens) :=
    level_flatMap fun n _ awaited => by simp [routeTokens, nest, partner]
  intro awaited
  let inner := ['\x7d', ')', '\x7d', '\x7d'] ++ awaited
  have hhead : nest awaited mainHead = some awaited := by simp [mainHead, nest]
  have happ : nest awaited (mainApp ++ .literal title ::
      (mainHome ++ ([.word home] ++ mainRoutes))) = some inner := by
    simp [mainApp, mainHome, mainRoutes, nest, partner, inner]
  have hfoot : nest inner mainFoot = some awaited := by simp [mainFoot, nest, inner]
  have hsplit : mainTokens title home names =
      mainHead ++ (names.flatMap importTokens ++ ((mainApp ++ .literal title ::
        (mainHome ++ ([.word home] ++ mainRoutes))) ++
          (names.flatMap routeTokens ++ mainFoot))) := by
    simp [mainTokens]
  rw [hsplit, nest_append, hhead, Option.bind_some, nest_append, himports, Option.bind_some,
    nest_append, happ, Option.bind_some, nest_append, hroutes, Option.bind_some, hfoot]

/-- Whatever its title, its labels and its designs are, the pages and the entry point of a
project are lexically closed. -/
theorem sources_closed (title : String) (first : Screen) (rest : List Screen) :
    let project : Project := ⟨first :: rest⟩
    (∃ ps, pages project.routes project = .ok ps ∧ ps.map Page.label = project.labels ∧
      ∀ p ∈ ps, LexicallyClosed p.source) ∧
    ∃ main, entryPoint title project.routes = .ok main ∧ LexicallyClosed main := by
  intro project
  constructor
  · obtain ⟨ps, hps, hlen, hpages⟩ := pages_ok project
    refine ⟨ps, hps, labels_pages (entries_pages hlen hpages), fun p hp => ?_⟩
    obtain ⟨i, hi, rfl⟩ := List.getElem_of_mem hp
    have hs : i < project.screens.length := hlen ▸ hi
    have hpage := hpages i _ _ (List.getElem?_eq_getElem hs) (List.getElem?_eq_getElem hi)
    exact ⟨_, hpage.reads, level_page _ (level_tokens (regular_shown _ _)) _⟩
  · have hlabels := labels_routes project
    cases he : project.routes.entries with
    | nil => simp [he, project] at hlabels
    | cons home more =>
      obtain ⟨main, hmain, hlex⟩ := entryPoint_ok title he (clean_resolve project.labels)
      exact ⟨main, hmain, _, hlex, level_main _ _ _ _⟩

end Screenwright.Proofs.Sources
