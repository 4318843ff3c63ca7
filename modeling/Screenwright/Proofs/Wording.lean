import Screenwright.Proofs.Likeness

namespace Screenwright.Proofs.Wording
open Dart Expr Design Style Screen Widget Lexing Layout Widgets Likeness

/-- Properties with a text to be shown. -/
def wordKeys : List String := ["text", "placeholder", "label", "fontFamily"]

/-- Two values of a property that are equal, or texts that both show something. -/
inductive Reworded (key : String) : PropValue → PropValue → Prop
  | same {v} : Reworded key v v
  | words {s s'} : key ∈ wordKeys → s ≠ "" → s' ≠ "" → Reworded key (.text s) (.text s')
  | source {s s'} : key = "src" → Text.trim s ≠ "" → Text.trim s' ≠ "" →
      Reworded key (.text s) (.text s')

def RewordedProps (p p' : Props) : Prop :=
  List.Forall₂ (fun e e' => e'.1 = e.1 ∧ Reworded e.1 e.2 e'.2) p.entries p'.entries

/-- Two nodes that are equal but for the wording of their properties. -/
structure RewordedNode (node node' : Node) : Prop where
  id : node'.id = node.id
  kind : node'.kind = node.kind
  isCanvas : node'.isCanvas = node.isCanvas
  props : RewordedProps node.props node'.props
  children : node'.children = node.children
  parent : node'.parent = node.parent
  displayName : node'.displayName = node.displayName

/-- Two designs that are equal but for the wording of their properties. -/
def RewordedTree (t t' : DesignTree) : Prop := List.Forall₂ RewordedNode t.nodes t'.nodes

/-- The properties that a kind of node shows in literals. -/
def shownKeys : Kind → List String
  | .text => ["text", "fontFamily"]
  | .button => ["text"]
  | .input => ["placeholder"]
  | .checkbox => ["label"]
  | .image => ["src"]
  | _ => []

/-- What a property's text is shown as; a source loses the blanks around it. -/
def spoken (key s : String) : String := if key = "src" then Text.trim s else s

/-- What is shown of one property in two designs. -/
structure Spoken (kind : Kind) (p p' : Props) (key s s' : String) : Prop where
  shown : key ∈ shownKeys kind
  left : ∃ text, p.text? key = some text ∧ s = spoken key text
  right : ∃ text, p'.text? key = some text ∧ s' = spoken key text

/-- The tokens at one position of two fragments: they are equal, or literals for what is shown of
one property of nodes with the same id. -/
inductive Agree (t t' : DesignTree) : Token → Token → Prop
  | same {k} : Agree t t' k k
  | words {id node node' key s s'} : t.get? id = some node → t'.get? id = some node' →
      Spoken node.kind node.props node'.props key s s' → Agree t t' (.literal s) (.literal s')

variable {A : Token → Token → Prop}

/-- Expressions with tokens that are related one by one. -/
def Alike (A : Token → Token → Prop) (e e' : Expr) : Prop := List.Forall₂ A (tokens e) (tokens e')

def AlikeArgs (A : Token → Token → Prop) : (args args' : List (Option String × Expr)) → Prop :=
  List.Forall₂ fun a a' => a'.1 = a.1 ∧ Alike A a.2 a'.2

theorem forall₂_self (h : ∀ k, A k k) (ts : List Token) : List.Forall₂ A ts ts :=
  List.forall₂_same.mpr fun k _ => h k

theorem forall₂_append {ts ts' us us' : List Token} (ht : List.Forall₂ A ts ts')
    (hu : List.Forall₂ A us us') : List.Forall₂ A (ts ++ us) (ts' ++ us') := by
  induction ht with
  | nil => exact hu
  | cons hk _ ih => exact .cons hk ih

theorem forall₂_ended (h : ∀ k, A k k) {tss uss : List (List Token)}
    (hts : List.Forall₂ (List.Forall₂ A) tss uss) : List.Forall₂ A (ended tss) (ended uss) := by
  induction hts with
  | nil => exact .nil
  | cons ht _ ih => exact forall₂_append (forall₂_append ht (forall₂_self h _)) ih

theorem forall₂_commas (h : ∀ k, A k k) {tss uss : List (List Token)}
    (hts : List.Forall₂ (List.Forall₂ A) tss uss) :
    List.Forall₂ A ([.mark ','].intercalate tss) ([.mark ','].intercalate uss) := by
  induction hts with
  | nil => exact .nil
  | @cons ts us tss uss ht hrest ih =>
    cases hrest with
    | nil => simpa using ht
    | cons _ _ =>
      rw [List.intercalate_cons_cons, List.intercalate_cons_cons]
      exact forall₂_append (forall₂_append ht (forall₂_self h _)) ih

theorem AlikeArgs.tokens (h : ∀ k, A k k) {args args' : List (Option String × Expr)}
    (ha : AlikeArgs A args args') :
    List.Forall₂ (List.Forall₂ A) (argTokens args) (argTokens args') := by
  induction ha with
  | nil => exact .nil
  | @cons a a' args args' hv _ ih =>
    obtain ⟨name, value⟩ := a
    obtain ⟨name', value'⟩ := a'
    obtain ⟨rfl, hv⟩ := hv
    exact .cons (forall₂_append (forall₂_self h _) hv) ih

theorem forall₂_itemTokens {items items' : List Expr} (hi : List.Forall₂ (Alike A) items items') :
    List.Forall₂ (List.Forall₂ A) (itemTokens items) (itemTokens items') := by
  induction hi with
  | nil => exact .nil
  | cons he _ ih => exact .cons he ih

theorem alike_self (h : ∀ k, A k k) (e : Expr) : Alike A e e := forall₂_self h _

theorem alike_call (h : ∀ k, A k k) {callee : String} {args args' : List (Option String × Expr)}
    (ha : AlikeArgs A args args') : Alike A (.call callee args) (.call callee args') := by
  unfold Alike
  simp only [tokens]
  refine forall₂_append (forall₂_append (forall₂_self h _) (.cons (h _) ?_)) (forall₂_self h _)
  exact forall₂_commas h (ha.tokens h)

theorem alike_block (h : ∀ k, A k k) {callee : String} {args args' : List (Option String × Expr)}
    (ha : AlikeArgs A args args') : Alike A (.block callee args) (.block callee args') := by
  unfold Alike
  simp only [tokens]
  refine forall₂_append (forall₂_append (forall₂_self h _) (.cons (h _) ?_)) (forall₂_self h _)
  exact forall₂_ended h (ha.tokens h)

theorem alike_list (h : ∀ k, A k k) {items items' : List Expr}
    (hi : List.Forall₂ (Alike A) items items') : Alike A (.list items) (.list items') := by
  unfold Alike
  simp only [tokens]
  refine forall₂_append (.cons (h _) ?_) (forall₂_self h _)
  exact forall₂_ended h (forall₂_itemTokens hi)

theorem alikeArgs_self (h : ∀ k, A k k) (args : List (Option String × Expr)) :
    AlikeArgs A args args :=
  List.forall₂_same.mpr fun a _ => ⟨rfl, alike_self h a.2⟩

variable {p p' : Props} {kind : Kind} {es es' : List Expr}

theorem rel_get? (hp : RewordedProps p p') (key : String) :
    Option.Rel (Reworded key) (p.get? key) (p'.get? key) := by
  unfold RewordedProps at hp
  unfold Catalog.get?
  generalize p.entries = es at hp
  generalize p'.entries = es' at hp
  induction hp with
  | nil => exact .none
  | @cons e e' rest rest' he _ ih =>
    obtain ⟨k, v⟩ := e
    obtain ⟨k', v'⟩ := e'
    obtain ⟨hkey, hv⟩ := he
    dsimp only at hkey hv
    subst hkey
    by_cases hk : k' = key
    · subst hk
      simpa using Option.Rel.some hv
    · simpa [hk] using ih

/-- Everything but wording is the same on both sides. -/
theorem get?_fixed (hp : RewordedProps p p') {key : String} (hk : key ∉ "src" :: wordKeys) :
    p'.get? key = p.get? key := by
  have hrel := rel_get? hp key
  obtain ⟨hsrc, hword⟩ := not_or.mp (List.mem_cons.not.mp hk)
  generalize p.get? key = v at hrel
  generalize p'.get? key = v' at hrel
  cases hrel with
  | none => rfl
  | some hv =>
    cases hv with
    | same => rfl
    | words h => exact absurd h hword
    | source h => exact absurd h hsrc

theorem text?_fixed (hp : RewordedProps p p') {key : String} (hk : key ∉ "src" :: wordKeys) :
    p'.text? key = p.text? key := by
  rw [Props.text?, get?_fixed hp hk, ← Props.text?]

/-- What is shown of a property is the same on both sides, or each side's own text. -/
theorem literal_textOr (h : ∀ k, A k k) (hp : RewordedProps p p')
    (hS : ∀ key s s', Spoken kind p p' key s s' → A (.literal s) (.literal s')) {key : String}
    (hshown : key ∈ shownKeys kind) (hsrc : key ≠ "src") (default : String) :
    A (.literal (p.textOr key default)) (.literal (p'.textOr key default)) := by
  have hrel := rel_get? hp key
  unfold Props.textOr
  cases hv : p.get? key with
  | none =>
    rw [hv] at hrel
    generalize hv' : p'.get? key = v' at hrel
    cases hrel
    exact h _
  | some v =>
    rw [hv] at hrel
    generalize hv' : p'.get? key = v' at hrel
    cases hrel with
    | some hw =>
      cases hw with
      | same => exact h _
      | source he => exact absurd he hsrc
      | @words s s' _ hs hs' =>
        have htruthy {s : String} (hs : s ≠ "") : (PropValue.text s).isTruthy = true := by
          simpa [PropValue.isTruthy] using hs
        simp only [htruthy hs, htruthy hs', if_true, PropValue.display]
        refine hS key s s' ⟨hshown, ⟨s, ?_, ?_⟩, ⟨s', ?_, ?_⟩⟩
        · rw [Props.text?, hv]
          rfl
        · rw [spoken, if_neg hsrc]
        · rw [Props.text?, hv']
          rfl
        · rw [spoken, if_neg hsrc]

theorem image_eq {s : String} (hs : p.text? "src" = some s) (hne : Text.trim s ≠ "") :
    image p = .block "Container" [
      named "width" (dimensionOf p "width"),
      named "height" (dimensionOf p "height"),
      named "margin" (insetsOf p "margin"),
      named "padding" (insetsOf p "padding"),
      named "decoration" (.block "BoxDecoration" [
        named "borderRadius" (radiusOf p),
        named "border" (framed p)]),
      named "child" (.block "ClipRRect" [
        named "borderRadius" (radiusOf p),
        named "child" (.block "Image.network" [
          plain (.quoted (Text.trim s)),
          named "fit" (.word "BoxFit.cover")])])] := by
  unfold image
  rw [hs, Option.map_some]
  split
  · next hn => cases hn
  · next hn => exact absurd (Option.some.inj hn) hne
  · next src _ hn => rw [Option.some.inj hn]

theorem forall₂_spaced (h : ∀ k, A k k) (gap : Binary64) (he : List.Forall₂ (Alike A) es es') :
    List.Forall₂ (Alike A) (spaced gap es) (spaced gap es') := by
  unfold spaced
  split
  · exact he
  · induction he with
    | nil => exact .nil
    | @cons e e' es es' he hes ih =>
      cases hes with
      | nil => exact .cons he .nil
      | cons _ _ =>
        rw [List.intersperse_cons_cons, List.intersperse_cons_cons]
        exact .cons he (.cons (alike_self h _) ih)

theorem AlikeArgs.kept (h : ∀ k, A k k) (a : Option String × Expr)
    {args args' : List (Option String × Expr)} (ha : AlikeArgs A args args') :
    AlikeArgs A (a :: args) (a :: args') := .cons ⟨rfl, alike_self h a.2⟩ ha

theorem AlikeArgs.changed {name : Option String} {value value' : Expr}
    {args args' : List (Option String × Expr)} (hv : Alike A value value')
    (ha : AlikeArgs A args args') : AlikeArgs A ((name, value) :: args) ((name, value') :: args') :=
  .cons ⟨rfl, hv⟩ ha

/-- An image is shown by the same form, unless its source says nothing. -/
theorem alike_image (h : ∀ k, A k k) (hp : RewordedProps p p')
    (hS : ∀ s s', Spoken .image p p' "src" s s' → A (.literal s) (.literal s')) :
    Alike A (image p) (image p') := by
  have hget {key : String} (hk : key ∉ "src" :: wordKeys) : p'.get? key = p.get? key :=
    get?_fixed hp hk
  have htext {key : String} (hk : key ∉ "src" :: wordKeys) : p'.text? key = p.text? key :=
    text?_fixed hp hk
  have hrel := rel_get? hp "src"
  cases hv : p.get? "src" with
  | none =>
    rw [hv] at hrel
    generalize hv' : p'.get? "src" = v' at hrel
    cases hrel
    have hnone {q : Props} (hq : q.get? "src" = none) : image q = nothing := by
      unfold image
      rw [Props.text?, hq]
      rfl
    rw [hnone hv, hnone hv']
    exact alike_self h _
  | some v =>
    rw [hv] at hrel
    generalize hv' : p'.get? "src" = v' at hrel
    obtain ⟨hw⟩ := hrel
    cases hw with
    | same =>
      have hsame : image p' = image p := by
        simp (disch := decide) only [image, Props.text?, hv, hv', dimensionOf, insetsOf,
          radiusOf, framed, borderColorOf, hget]
      rw [hsame]
      exact alike_self h _
    | words hk => exact absurd hk (by decide)
    | @source s s' _ hs hs' =>
      have hsrc : p.text? "src" = some s := by rw [Props.text?, hv]; rfl
      have hsrc' : p'.text? "src" = some s' := by rw [Props.text?, hv']; rfl
      have hname : Alike A (.quoted (Text.trim s)) (.quoted (Text.trim s')) :=
        .cons (hS _ _ ⟨by decide, ⟨s, hsrc, rfl⟩, ⟨s', hsrc', rfl⟩⟩) .nil
      rw [image_eq hsrc hs, image_eq hsrc' hs']
      simp (disch := decide) only [dimensionOf, insetsOf, radiusOf, framed, borderColorOf, hget,
        htext]
      refine alike_block h (.kept h _ (.kept h _ (.kept h _ (.kept h _ (.kept h _
        (.changed ?_ .nil))))))
      refine alike_block h (.kept h _ (.changed ?_ .nil))
      exact alike_block h (.changed hname (alikeArgs_self h _))

theorem alike_element (h : ∀ k, A k k) (hp : RewordedProps p p')
    (hS : ∀ key s s', Spoken kind p p' key s s' → A (.literal s) (.literal s'))
    (routes : Routes) (he : List.Forall₂ (Alike A) es es') :
    Alike A (element routes kind p es) (element routes kind p' es') := by
  have hget {key : String} (hk : key ∉ "src" :: wordKeys) : p'.get? key = p.get? key :=
    get?_fixed hp hk
  have htext {key : String} (hk : key ∉ "src" :: wordKeys) : p'.text? key = p.text? key :=
    text?_fixed hp hk
  have hword (key : String) (hk : key ∈ shownKeys kind) (hsrc : key ≠ "src") (default : String) :
      Alike A (.quoted (p.textOr key default)) (.quoted (p'.textOr key default)) :=
    .cons (literal_textOr h hp hS hk hsrc default) .nil
  cases kind with
  | container =>
    have hgap : gapOf p' = gapOf p := by
      simp (disch := decide) only [gapOf, gapKeys, Props.firstTruthy, List.filterMap_cons, hget,
        List.filterMap_nil]
    simp (disch := decide) only [element, container, dimensionOf, insetsOf, colorOf, radiusOf,
      framed, borderColorOf, hget, htext, hgap]
    have hcolumn := alike_list h (forall₂_spaced h (gapOf p) he)
    refine alike_block h (.kept h _ (.kept h _ (.kept h _ (.kept h _ (.kept h _
      (.changed ?_ .nil))))))
    exact alike_block h (.kept h _ (.kept h _ (.changed hcolumn .nil)))
  | text =>
    have hfont := hword "fontFamily" (by decide) (by decide) "Arial"
    have htext' := hword "text" (by decide) (by decide) ""
    simp (disch := decide) only [element, text, colorOf, hget, htext]
    refine alike_block h (.changed htext' (.changed ?_ (alikeArgs_self h _)))
    exact alike_block h (.kept h _ (.kept h _ (.kept h _ (.changed hfont (alikeArgs_self h _)))))
  | button =>
    have hlabel := hword "text" (by decide) (by decide) "Button"
    simp (disch := decide) only [element, button, pressed, insetsOf, colorOf, radiusOf, hget, htext]
    refine alike_block h (.kept h _ (.changed ?_ .nil))
    refine alike_block h (.kept h _ (.kept h _ (.changed ?_ .nil)))
    exact alike_block h (.changed hlabel (alikeArgs_self h _))
  | input =>
    have hhint := hword "placeholder" (by decide) (by decide) ""
    simp (disch := decide) only [element, input, insetsOf, borderColorOf, radiusOf, hget, htext]
    refine alike_block h (.kept h _ (.changed ?_ .nil))
    refine alike_block h (.changed ?_ .nil)
    exact alike_block h (.changed hhint (alikeArgs_self h _))
  | checkbox =>
    have hlabel := hword "label" (by decide) (by decide) ""
    simp only [element, checkbox]
    refine alike_block h (.changed ?_ .nil)
    exact alike_list h (.cons (alike_self h _) (.cons (alike_call h (.changed hlabel .nil)) .nil))
  | image =>
    exact alike_image h hp fun s s' => hS "src" s s'
  | table =>
    simp (disch := decide) only [element, table, borderColorOf, htext]
    exact alike_self h _
  | unknown tag => exact alike_self h _

variable {t t' : DesignTree}

theorem rel_nodes (h : RewordedTree t t') (id : String) :
    Option.Rel RewordedNode (t.get? id) (t'.get? id) := by
  unfold RewordedTree at h
  unfold DesignTree.get?
  generalize t.nodes = nodes at h
  generalize t'.nodes = nodes' at h
  induction h with
  | nil => exact .none
  | @cons node node' rest rest' hn _ ih =>
    by_cases hid : node.id = id
    · simpa [hn.id, hid] using Option.Rel.some hn
    · simpa [hn.id, hid] using ih

theorem twins (h : RewordedTree t t') (routes : Routes) (id : String) :
    Option.Rel (Twin (Alike (Agree t t')) routes) (t.get? id) (t'.get? id) := by
  have hrel := rel_nodes h id
  cases hn : t.get? id with
  | none =>
    rw [hn] at hrel
    generalize t'.get? id = v' at hrel
    cases hrel
    exact .none
  | some node =>
    rw [hn] at hrel
    generalize hn' : t'.get? id = v' at hrel
    cases hrel with
    | some hr =>
      refine .some ⟨hr.kind, hr.children, fun es es' he => ?_⟩
      exact alike_element (fun _ => .same) hr.props (fun _ _ _ hs => .words hn hn' hs) routes he

/-- Rewording a design changes no token of its code but the literals that show its texts. -/
theorem lex_code (h : RewordedTree t t') (routes : Routes) (id : String) (indent : Nat) :
    ∃ ts ts', lex (code routes t id indent) = some ts ∧
      lex (code routes t' id indent) = some ts' ∧ List.Forall₂ (Agree t t') ts ts' := by
  have hrel := rel_compileBelow (twins h routes) [] id
  unfold code compile
  cases he : compileBelow routes t [] id with
  | none =>
    rw [he] at hrel
    generalize compileBelow routes t' [] id = w at hrel
    cases hrel
    exact ⟨[], [], Seals.empty.lex_eq, Seals.empty.lex_eq, .nil⟩
  | some e =>
    rw [he] at hrel
    generalize he' : compileBelow routes t' [] id = w at hrel
    cases hrel with
    | some halike =>
      have hreg := regular_compileBelow routes t [] id e he
      have hreg' := regular_compileBelow routes t' [] id _ he'
      exact ⟨_, _, (hreg.reads indent).lex_eq, (hreg'.reads indent).lex_eq, halike⟩

/-- A form with a text of every kind. -/
def form (title hint note source : String) : List Node := [
  { id := "ROOT", kind := .container, props := .ofList [("gap", .text "8px")],
    children := ["title", "hint", "note", "picture"] },
  { id := "title", kind := .text,
    props := .ofList [("text", .text title), ("fontFamily", .text title)] },
  { id := "hint", kind := .input, props := .ofList [("placeholder", .text hint)] },
  { id := "note", kind := .checkbox, props := .ofList [("label", .text note)] },
  { id := "picture", kind := .image, props := .ofList [("src", .text source)] }]

theorem lex_code_form :
    RewordedTree (.ofList (form "Hello" "Name" "Agree" "a.png"))
        (.ofList (form "'); run('" "$\x7bsecret\x7d" "// \n" "\t\\') ")) ∧
      ∃ ts ts',
        lex (code {} (.ofList (form "Hello" "Name" "Agree" "a.png")) "ROOT" 4) = some ts ∧
        lex (code {} (.ofList (form "'); run('" "$\x7bsecret\x7d" "// \n" "\t\\') ")) "ROOT" 4) =
          some ts' ∧
        List.Forall₂ (Agree (.ofList (form "Hello" "Name" "Agree" "a.png"))
          (.ofList (form "'); run('" "$\x7bsecret\x7d" "// \n" "\t\\') "))) ts ts' := by
  have hsame {p : Props} : RewordedProps p p := List.forall₂_same.mpr fun _ _ => ⟨rfl, .same⟩
  have hone {key s s' : String} (hv : Reworded key (.text s) (.text s')) :
      RewordedProps (.ofList [(key, .text s)]) (.ofList [(key, .text s')]) :=
    .cons ⟨rfl, hv⟩ .nil
  have htitle : RewordedProps
      (.ofList [("text", .text "Hello"), ("fontFamily", .text "Hello")])
      (.ofList [("text", .text "'); run('"), ("fontFamily", .text "'); run('")]) :=
    .cons ⟨rfl, .words (by decide) (by decide) (by decide)⟩
      (.cons ⟨rfl, .words (by decide) (by decide) (by decide)⟩ .nil)
  have h : RewordedTree (.ofList (form "Hello" "Name" "Agree" "a.png"))
      (.ofList (form "'); run('" "$\x7bsecret\x7d" "// \n" "\t\\') ")) :=
    .cons ⟨rfl, rfl, rfl, hsame, rfl, rfl, rfl⟩ <|
    .cons ⟨rfl, rfl, rfl, htitle, rfl, rfl, rfl⟩ <|
    .cons ⟨rfl, rfl, rfl, hone (.words (by decide) (by decide) (by decide)), rfl, rfl, rfl⟩ <|
    .cons ⟨rfl, rfl, rfl, hone (.words (by decide) (by decide) (by decide)), rfl, rfl, rfl⟩ <|
    .cons ⟨rfl, rfl, rfl, hone (.source rfl (by decide +kernel) (by decide +kernel)),
      rfl, rfl, rfl⟩ .nil
  exact ⟨h, lex_code h {} "ROOT" 4⟩

end Screenwright.Proofs.Wording
