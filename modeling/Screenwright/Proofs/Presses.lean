import Mathlib.Data.List.Basic
import Screenwright.Proofs.Widgets

namespace Screenwright.Proofs.Presses
open Dart Expr Design Style Widget Screen Lexing Layout Widgets

/-- What follows a word, wherever it occurs. -/
def following (w : String) : List Token → List (List Token)
  | [] => []
  | t :: ts => if t = .word w then ts :: following w ts else following w ts

/-- What a handler does: nothing, or it opens a path. -/
inductive Action where
  | idle
  | opens (path : String)
deriving DecidableEq

def Action.of : Option String → Action
  | none => .idle
  | some path => .opens path

def Action.path? : Action → Option String
  | .idle => none
  | .opens path => some path

/-- The path of a navigation, behind the word that starts it. -/
def path? : List Token → Option String
  | .mark '.' :: .word "pushNamed" :: .opening '(' :: .word "context" :: .mark ',' ::
      .literal path :: .closing ')' :: _ => some path
  | _ => none

/-- The action of a handler, behind its name. -/
def action? : List Token → Option Action
  | .mark ':' :: .opening '(' :: .closing ')' :: .opening '\x7b' :: .closing '\x7d' :: _ =>
    some .idle
  | .mark ':' :: .opening '(' :: .closing ')' :: .mark '=' :: .mark '>' ::
      .word "Navigator" :: ts => (path? ts).map .opens
  | _ => none

def name? : List Token → Option String
  | .word name :: _ => some name
  | _ => none

/-- The handlers of a file; one that cannot be read has no action. -/
def handlers (ts : List Token) : List (Option Action) := (following "onPressed" ts).map action?

/-- The navigations of a file, in handlers or elsewhere. -/
def navigations (ts : List Token) : List (Option String) := (following "Navigator" ts).map path?

def classes (ts : List Token) : List (Option String) := (following "class" ts).map name?

theorem following_append (w : String) (ts us : List Token) :
    following w (ts ++ us) = (following w ts).map (· ++ us) ++ following w us := by
  induction ts with
  | nil => rfl
  | cons t ts ih =>
    by_cases h : t = .word w
    · simp [following, h, ih]
    · simp [following, h, ih]

theorem following_eq_nil {w : String} {ts : List Token} (h : .word w ∉ ts) :
    following w ts = [] := by
  induction ts with
  | nil => rfl
  | cons t ts ih =>
    obtain ⟨ht, hts⟩ := not_or.mp (List.mem_cons.not.mp h)
    rw [following, if_neg (Ne.symm ht), ih hts]

theorem following_append_of_not_mem {w : String} {ts : List Token} (h : .word w ∉ ts)
    (us : List Token) : following w (ts ++ us) = following w us := by
  simp [following_append, following_eq_nil h]

/-- Tokens whose handlers open some paths or do nothing, in order; whatever follows, nothing
else in them navigates, and they declare no class. -/
def Acts (ts : List Token) (targets : List (Option String)) : Prop :=
  ∀ us, handlers (ts ++ us) = targets.map (fun t => some (.of t)) ++ handlers us ∧
    navigations (ts ++ us) = (targets.filterMap id).map some ++ navigations us ∧
    classes (ts ++ us) = classes us

theorem Acts.nil : Acts [] [] := fun _ => ⟨rfl, rfl, rfl⟩

theorem Acts.append {ts us : List Token} {as bs : List (Option String)} (ht : Acts ts as)
    (hu : Acts us bs) : Acts (ts ++ us) (as ++ bs) := by
  intro vs
  obtain ⟨h, n, c⟩ := ht (us ++ vs)
  obtain ⟨h', n', c'⟩ := hu vs
  rw [List.append_assoc]
  refine ⟨?_, ?_, c.trans c'⟩
  · rw [h, h', List.map_append, List.append_assoc]
  · rw [n, n', List.filterMap_append, List.map_append, List.append_assoc]

theorem acts_quiet {ts : List Token} (h : ∀ t ∈ ts, t ∉ reserved) : Acts ts [] := by
  have hw {w : String} (hr : .word w ∈ reserved) : .word w ∉ ts := fun hm => h _ hm hr
  intro us
  simp [handlers, navigations, classes,
    following_append_of_not_mem (hw (w := "onPressed") (by decide)),
    following_append_of_not_mem (hw (w := "Navigator") (by decide)),
    following_append_of_not_mem (hw (w := "class") (by decide))]

theorem acts_press (target : Option String) :
    Acts (labelTokens (some "onPressed") ++ tokens (press target)) [target] := by
  intro us
  rw [labelTokens, plain_onPressed.2]
  cases target with
  | none =>
    rw [tokens_press_none]
    simp [handlers, navigations, classes, following, action?, Action.of]
  | some path =>
    rw [tokens_press_some]
    simp [handlers, navigations, classes, following, action?, path?, Action.of]

def opened : Expr → Option String
  | .action (.call _ [_, (_, .quoted path)]) => some path
  | _ => none

mutual

/-- What the handlers in an expression open, in order. -/
def presses : Expr → List (Option String)
  | .call _ args => (argPresses args).flatten
  | .block _ args => (argPresses args).flatten
  | .list items => (itemPresses items).flatten
  | _ => []

def argPresses : List (Option String × Expr) → List (List (Option String))
  | [] => []
  | (name, value) :: args =>
    (if name = some "onPressed" then [opened value] else presses value) :: argPresses args

def itemPresses : List Expr → List (List (Option String))
  | [] => []
  | item :: items => presses item :: itemPresses items

end

theorem opened_press (target : Option String) : opened (press target) = target := by
  cases target <;> rfl

theorem Quiet.ne_onPressed {name : String} (h : Quiet name) : name ≠ "onPressed" := by
  rintro rfl
  exact h.2 (.word "onPressed") (plain_onPressed.2 ▸ List.mem_cons_self) (by decide)

theorem acts_plain {s : String} (h : Quiet s) : Acts (plainTokens s) [] := acts_quiet h.2

theorem acts_label {name : Option String} {ts : List Token} {as : List (Option String)}
    (hv : Acts ts as) (hn : ∀ n, name = some n → Quiet n) : Acts (labelTokens name ++ ts) as := by
  cases name with
  | none => exact hv
  | some n => exact ((acts_plain (hn n rfl)).append (acts_quiet (by decide))).append hv

theorem acts_ended {tss : List (List Token)} {ass : List (List (Option String))}
    (h : List.Forall₂ Acts tss ass) : Acts (ended tss) ass.flatten := by
  induction h with
  | nil => exact .nil
  | @cons ts as tss ass ht _ ih =>
    have hcomma : Acts [.mark ','] [] := acts_quiet (by decide)
    have hall := (ht.append hcomma).append ih
    rw [List.append_nil] at hall
    exact hall

theorem acts_commas {tss : List (List Token)} {ass : List (List (Option String))}
    (h : List.Forall₂ Acts tss ass) : Acts ([.mark ','].intercalate tss) ass.flatten := by
  induction h with
  | nil => exact .nil
  | @cons ts as tss ass ht hts ih =>
    cases hts with
    | nil => simpa using ht
    | cons hu hus =>
      have hcomma : Acts [.mark ','] [] := acts_quiet (by decide)
      have hall := (ht.append hcomma).append ih
      rw [List.append_nil] at hall
      rw [List.intercalate_cons_cons]
      exact hall

theorem Acts.enclosed {ts : List Token} {as : List (Option String)} (h : Acts ts as) (c d : Char) :
    Acts (.opening c :: ts ++ [.closing d]) as := by
  have hopen : Acts [.opening c] [] := acts_quiet (by simp [reserved])
  have hclose : Acts [.closing d] [] := acts_quiet (by simp [reserved])
  simpa using (hopen.append h).append hclose

mutual

theorem acts_tokens {e : Expr} (h : Regular e) : Acts (tokens e) (presses e) := by
  cases h with
  | word ht => exact acts_plain ht
  | quoted => exact acts_quiet (by simp [tokens, reserved])
  | call hf ha =>
    have hin := (acts_plain hf).append ((acts_commas (acts_args ha)).enclosed '(' ')')
    simpa [tokens, presses] using hin
  | block hf ha =>
    have hin := (acts_plain hf).append ((acts_ended (acts_args ha)).enclosed '(' ')')
    simpa [tokens, presses] using hin
  | list hi => simpa [tokens, presses] using (acts_ended (acts_items hi)).enclosed '[' ']'
  | remark => exact acts_quiet (by simp [tokens, reserved])
  | idle hp =>
    have hin := ((acts_plain hp).enclosed '(' ')').append (Acts.nil.enclosed '\x7b' '\x7d')
    simpa [tokens, presses] using hin

theorem acts_args {args : List (Option String × Expr)} (h : RegularArgs args) :
    List.Forall₂ Acts (argTokens args) (argPresses args) := by
  cases h with
  | nil => exact .nil
  | plain hv ha =>
    rw [argTokens, argPresses, if_neg (by simp)]
    exact .cons (acts_label (acts_tokens hv) (by simp)) (acts_args ha)
  | @named name value args hn hv ha =>
    have hname : some name ≠ some "onPressed" := fun he => Quiet.ne_onPressed hn (by simpa using he)
    rw [argTokens, argPresses, if_neg hname]
    refine .cons (acts_label (acts_tokens hv) ?_) (acts_args ha)
    intro n he
    cases he
    exact hn
  | press target ha =>
    rw [argTokens, argPresses, if_pos rfl, opened_press]
    exact .cons (acts_press target) (acts_args ha)

theorem acts_items {items : List Expr} (h : RegularItems items) :
    List.Forall₂ Acts (itemTokens items) (itemPresses items) := by
  cases h with
  | nil => exact .nil
  | cons hi his => exact .cons (acts_tokens hi) (acts_items his)

end

theorem itemPresses_eq (items : List Expr) : itemPresses items = items.map presses := by
  induction items with
  | nil => rfl
  | cons item items ih => rw [itemPresses, List.map_cons, ih]

theorem presses_color (c : ColorValue) : presses c.toDart = [] := by
  cases c <;> rfl

theorem presses_insets (i : Insets) : presses i.toDart = [] := by
  cases i <;> rfl

theorem presses_dimension (d : Dimension) : presses d.toDart = [] := by
  cases d <;> rfl

theorem presses_spaced (gap : Binary64) (children : List Expr) :
    (itemPresses (spaced gap children)).flatten = children.flatMap presses := by
  have hspacer : presses (.call "SizedBox" [named "height" (number gap)]) = [] := rfl
  rw [itemPresses_eq, ← List.flatMap_def]
  unfold spaced
  split
  · rfl
  · induction children with
    | nil => rfl
    | cons e es ih =>
      cases es with
      | nil => rfl
      | cons f fs => simpa [hspacer] using ih

theorem presses_container (p : Props) (children : List Expr) :
    presses (container p children) = children.flatMap presses := by
  simp [container, presses, argPresses, named, dimensionOf, insetsOf, colorOf, framed, radiusOf,
    plain, number, borderColorOf, presses_color, presses_insets, presses_dimension,
    presses_spaced, MainAxis.toDart, CrossAxis.toDart]

theorem presses_text (p : Props) : presses (text p) = [] := by
  simp [text, presses, argPresses, named, plain, number, colorOf, presses_color,
    FontWeight.toDart, TextDecoration.toDart, TextAlign.toDart]

theorem presses_button (routes : Routes) (p : Props) :
    presses (button routes p) = [targetOf routes p] := by
  simp [button, pressed_eq, opened_press, presses, argPresses, named, plain, radiusOf, number,
    insetsOf, colorOf, presses_color, presses_insets]

theorem presses_input (p : Props) : presses (input p) = [] := by
  simp [input, presses, argPresses, named, plain, radiusOf, number, insetsOf, borderColorOf,
    presses_color, presses_insets]

theorem presses_checkbox (p : Props) : presses (checkbox p) = [] := by
  simp [checkbox, presses, argPresses, itemPresses, named, plain]

theorem presses_image (p : Props) : presses (image p) = [] := by
  unfold image
  split
  · rfl
  · rfl
  · simp [presses, argPresses, named, plain, radiusOf, number, dimensionOf, insetsOf, framed,
      borderColorOf, presses_color, presses_insets, presses_dimension]

theorem presses_table (p : Props) : presses (table p) = [] := by
  simp [table, presses, argPresses, named, borderColorOf, presses_color]

/-- The nodes that compiling a node visits, in order: itself, and what its children visit. -/
def visits (t : DesignTree) (path : List String) (id : String) : List Node :=
  match _h : t.get? id with
  | none => []
  | some node =>
    if _hp : id ∈ path then []
    else node ::
      if node.kind = .container then node.children.flatMap fun c => visits t (id :: path) c else []
termination_by (offPath t path).length
decreasing_by exact length_offPath_lt _h _hp

/-- A node that compiling reaches: the one at the top, or one below a child of a container,
along ids that do not repeat. -/
inductive Reached (t : DesignTree) : List String → String → Node → Prop
  | here {path id node} : t.get? id = some node → id ∉ path → Reached t path id node
  | under {path id node c found} : t.get? id = some node → id ∉ path → node.kind = .container →
      c ∈ node.children → Reached t (id :: path) c found → Reached t path id found

theorem visits_missing {t : DesignTree} {path : List String} {id : String}
    (h : t.get? id = none) : visits t path id = [] := by
  rw [visits]
  split
  · rfl
  · next node hn => rw [h] at hn; cases hn

theorem visits_repeated {t : DesignTree} {path : List String} {id : String}
    (h : id ∈ path) : visits t path id = [] := by
  rw [visits]
  split
  · rfl
  · rw [dif_pos h]

theorem visits_node {t : DesignTree} {path : List String} {id : String} {node : Node}
    (h : t.get? id = some node) (hp : id ∉ path) :
    visits t path id = node ::
      if node.kind = .container then node.children.flatMap (visits t (id :: path)) else [] := by
  rw [visits]
  split
  · next hn => rw [h] at hn; cases hn
  · next found hn =>
    cases h.symm.trans hn
    rw [dif_neg hp]

theorem mem_visits_iff {t : DesignTree} {path : List String} {id : String} {found : Node} :
    found ∈ visits t path id ↔ Reached t path id found := by
  constructor
  · intro h
    induction path, id using visits.induct t with
    | case1 path id hmissing => simp [visits_missing hmissing] at h
    | case2 path id node _ hp => simp [visits_repeated hp] at h
    | case3 path id node hn hp ih =>
      rw [visits_node hn hp] at h
      rcases List.mem_cons.mp h with rfl | h
      · exact .here hn hp
      · split at h
        · next hk =>
          obtain ⟨c, hc, hf⟩ := List.mem_flatMap.mp h
          exact .under hn hp hk hc (ih c hf)
        · cases h
  · intro h
    induction h with
    | here hn hp => simp [visits_node hn hp]
    | under hn hp hk hc _ ih =>
      rw [visits_node hn hp, if_pos hk]
      exact List.mem_cons_of_mem _ (List.mem_flatMap.mpr ⟨_, hc, ih⟩)

def isButton (node : Node) : Bool := decide (node.kind = .button)

/-- The buttons that compiling a tree reaches, in order. -/
def buttons (t : DesignTree) : List Node :=
  (visits t [] DesignTree.rootId).filter isButton

/-- What is visited below a node that is no container is nothing, so its widget presses what
the node itself does. -/
theorem presses_element (routes : Routes) (node : Node) (children : List Expr) :
    presses (element routes node.kind node.props children) =
      (if isButton node then [targetOf routes node.props] else []) ++
        (if node.kind = .container then children.flatMap presses else []) := by
  unfold isButton
  cases node.kind with
  | container => simp [element, presses_container]
  | text => simp [element, presses_text]
  | button => simp [element, presses_button]
  | input => simp [element, presses_input]
  | checkbox => simp [element, presses_checkbox]
  | image => simp [element, presses_image]
  | table => simp [element, presses_table]
  | unknown _ => simp [element, nothing, presses, argPresses]

theorem flatMap_filterMap {α β γ : Type} (f : α → Option β) (g : β → List γ) (xs : List α) :
    (xs.filterMap f).flatMap g = xs.flatMap fun x => ((f x).map g).getD [] := by
  induction xs with
  | nil => rfl
  | cons x xs ih =>
    cases h : f x with
    | none => simp [h, ih]
    | some y => simp [h, ih]

/-- The handlers of a widget are those of the buttons that are visited, in the same order. -/
theorem presses_compileBelow (routes : Routes) (t : DesignTree) (path : List String) (id : String) :
    ((compileBelow routes t path id).map presses).getD [] =
      ((visits t path id).filter isButton).map fun b => targetOf routes b.props := by
  induction path, id using visits.induct t with
  | case1 path id hmissing => simp [compileBelow_missing hmissing, visits_missing hmissing]
  | case2 path id node _ hp => simp [compileBelow_repeated hp, visits_repeated hp]
  | case3 path id node hn hp ih =>
    rw [compileBelow_node hn hp, visits_node hn hp, Option.map_some, Option.getD_some,
      presses_element, List.filter_cons]
    by_cases hk : node.kind = .container
    · have hb : isButton node = false := by simp [isButton, hk]
      simp only [childrenBelow, hk, hb, if_true, Bool.false_eq_true, if_false, List.nil_append]
      rw [flatMap_filterMap, List.filter_flatMap, List.map_flatMap]
      exact List.flatMap_congr fun c _ => ih c
    · cases hb : isButton node <;> simp [hk]

end Screenwright.Proofs.Presses
