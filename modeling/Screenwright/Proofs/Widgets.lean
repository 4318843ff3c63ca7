import Screenwright.Proofs.Figures
import Screenwright.Proofs.Layout
import Screenwright.Widget.Compile

namespace Screenwright.Proofs.Widgets
open Dart Expr Design Style Widget Screen Lexing Layout Figures

theorem isPlain_of_isFigure {c : Char} (h : isFigure c = true) : isPlain c = true := by
  simp only [isFigure, Bool.or_eq_true, decide_eq_true_eq] at h
  rcases h with h | h
  · have hd : Text.isDigit c = true := by
      simpa [Text.isDigit, Char.isDigit, Char.le_def] using h
    simp [isPlain, isWordChar, Name.isBaseChar, hd]
  · exact List.all_eq_true.mp (by decide) c h

theorem quiet_of_figures {s : String} (h : OfFigures s) : Quiet s := by
  have hplain : ∀ c ∈ s.toList, isPlain c = true ∧ isFigure c = true :=
    fun c hc => ⟨isPlain_of_isFigure (h c hc), h c hc⟩
  refine ⟨fun c hc => (hplain c hc).1, fun t ht hr => ?_⟩
  have hs := (reads_plain (p := (isFigure · = true)) hplain).2 t ht
  simp only [reserved, List.mem_cons, List.not_mem_nil, or_false] at hr
  rcases hr with rfl | rfl | rfl
  · exact absurd (hs 'l' (by simp)) (by decide)
  · exact absurd (hs 'o' (by simp)) (by decide)
  · exact absurd (hs 'g' (by simp)) (by decide)

theorem regular_number (x : Binary64) : Regular (number x) :=
  .word (quiet_of_figures (figures_plain x))

theorem regular_ofInt (n : Int) : Regular (ofInt n) := .word (quiet_of_figures (figures_int n))

theorem regular_color (c : ColorValue) : Regular c.toDart := by
  cases c with
  | transparent => exact .word (quiet rfl)
  | solid c =>
    have hprefix : OfFigures "0x" := figures_text (by decide)
    have hdigits := hprefix.append (figures_ofList (figures_hexFixed 8 c.argb))
    exact .call (quiet rfl) (.plain (.word (quiet_of_figures hdigits)) .nil)
  | fallback => exact .word (quiet rfl)

theorem regular_insets (i : Insets) : Regular i.toDart := by
  cases i with
  | uniform all => exact .call (quiet rfl) (.plain (regular_ofInt all) .nil)
  | symmetric vertical horizontal =>
    exact .call (quiet rfl) (.named (quiet rfl) (regular_ofInt vertical)
      (.named (quiet rfl) (regular_ofInt horizontal) .nil))
  | each left top right bottom =>
    exact .call (quiet rfl) (.plain (regular_ofInt left) (.plain (regular_ofInt top)
      (.plain (regular_ofInt right) (.plain (regular_ofInt bottom) .nil))))

theorem regular_dimension (d : Dimension) : Regular d.toDart := by
  cases d with
  | unconstrained => exact .word (quiet rfl)
  | fill => exact .word (quiet rfl)
  | fixed x => exact regular_number x

theorem quiet_append {as bs : List Char} (h : isQuiet (as ++ bs) = true) :
    Quiet (String.ofList as ++ String.ofList bs) := by
  rw [← String.ofList_append]
  exact quiet h

theorem regular_mainAxis (a : MainAxis) : Regular a.toDart := by
  cases a <;> exact .word (quiet_append rfl)

theorem regular_crossAxis (a : CrossAxis) : Regular a.toDart := by
  cases a <;> exact .word (quiet_append rfl)

theorem regular_textAlign (a : Style.TextAlign) : Regular a.toDart := by
  cases a <;> exact .word (quiet_append rfl)

theorem regular_fontWeight (w : FontWeight) : Regular w.toDart := by
  cases w <;> exact .word (quiet_append rfl)

theorem regular_textDecoration (d : TextDecoration) : Regular d.toDart := by
  cases d <;> exact .word (quiet_append rfl)

theorem regular_dimensionOf (p : Props) (key : String) : Regular (dimensionOf p key) :=
  regular_dimension _

theorem regular_insetsOf (p : Props) (key : String) : Regular (insetsOf p key) := regular_insets _

theorem regular_colorOf (p : Props) (key : String) : Regular (colorOf p key) := regular_color _

theorem regular_borderColorOf (p : Props) : Regular (borderColorOf p) := regular_color _

theorem regular_radiusOf (p : Props) : Regular (radiusOf p) :=
  .call (quiet rfl) (.plain (regular_number _) .nil)

theorem regular_framed (p : Props) : Regular (framed p) :=
  .call (quiet rfl) (.named (quiet rfl) (regular_borderColorOf p) .nil)

theorem regular_nothing : Regular nothing := .call (quiet rfl) .nil

theorem regularItems {items : List Expr} (h : ∀ e ∈ items, Regular e) : RegularItems items := by
  induction items with
  | nil => exact .nil
  | cons e items ih =>
    exact .cons (h e List.mem_cons_self) (ih fun f hf => h f (List.mem_cons_of_mem _ hf))

theorem mem_intersperse {α : Type} {x sep : α} {xs : List α} (h : x ∈ xs.intersperse sep) :
    x = sep ∨ x ∈ xs := by
  induction xs with
  | nil => simp at h
  | cons a xs ih =>
    cases xs with
    | nil => exact .inr (by simpa using h)
    | cons b xs =>
      rw [List.intersperse_cons_cons] at h
      rcases List.mem_cons.mp h with rfl | h
      · exact .inr List.mem_cons_self
      rcases List.mem_cons.mp h with rfl | h
      · exact .inl rfl
      · exact (ih h).imp id (List.mem_cons_of_mem _)

theorem regular_spaced {gap : Binary64} {children : List Expr}
    (h : ∀ e ∈ children, Regular e) : RegularItems (spaced gap children) := by
  unfold spaced
  split
  · exact regularItems h
  · refine regularItems fun e he => ?_
    rcases mem_intersperse he with rfl | he
    · exact .call (quiet rfl) (.named (quiet rfl) (regular_number gap) .nil)
    · exact h e he

theorem regular_container (p : Props) {children : List Expr} (h : ∀ e ∈ children, Regular e) :
    Regular (container p children) :=
  have decoration : Regular _ :=
    .block (quiet rfl) (.named (quiet rfl) (regular_colorOf p "background")
      (.named (quiet rfl) (regular_radiusOf p) (.named (quiet rfl) (regular_framed p) .nil)))
  have column : Regular _ :=
    .block (quiet rfl) (.named (quiet rfl) (regular_mainAxis _)
      (.named (quiet rfl) (regular_crossAxis _)
        (.named (quiet rfl) (.list (regular_spaced h)) .nil)))
  .block (quiet rfl) (.named (quiet rfl) (regular_dimensionOf p "width")
    (.named (quiet rfl) (regular_dimensionOf p "height")
      (.named (quiet rfl) (regular_insetsOf p "padding")
        (.named (quiet rfl) (regular_insetsOf p "margin")
          (.named (quiet rfl) decoration (.named (quiet rfl) column .nil))))))

theorem regular_text (p : Props) : Regular (text p) :=
  have style : Regular _ :=
    .block (quiet rfl) (.named (quiet rfl) (regular_number _)
      (.named (quiet rfl) (regular_colorOf p "color")
        (.named (quiet rfl) (regular_fontWeight _) (.named (quiet rfl) .quoted
          (.named (quiet rfl) (regular_textDecoration _)
            (.named (quiet rfl) (.word (quiet_of_figures (figures_pointed _))) .nil))))))
  .block (quiet rfl) (.plain .quoted (.named (quiet rfl) style
    (.named (quiet rfl) (regular_textAlign _) .nil)))

/-- The path that a button's press opens, if there is one. -/
def targetOf (routes : Routes) (p : Props) : Option String :=
  (p.text? "gotoScreen").bind routes.pathOf?

theorem pressed_eq (routes : Routes) (p : Props) :
    pressed routes p = press (targetOf routes p) := by
  unfold pressed targetOf
  cases (p.text? "gotoScreen").bind routes.pathOf? <;> rfl

theorem regular_button (routes : Routes) (p : Props) : Regular (button routes p) := by
  have shape : Regular _ :=
    .block (quiet rfl : Quiet "RoundedRectangleBorder")
      (.named (quiet rfl : Quiet "borderRadius") (regular_radiusOf p) .nil)
  have style : Regular _ :=
    .block (quiet rfl : Quiet "ElevatedButton.styleFrom")
      (.named (quiet rfl : Quiet "backgroundColor") (regular_colorOf p "background")
        (.named (quiet rfl : Quiet "padding") (regular_insetsOf p "padding")
          (.named (quiet rfl : Quiet "shape") shape .nil)))
  have label : Regular _ :=
    .call (quiet rfl : Quiet "TextStyle")
      (.named (quiet rfl : Quiet "color") (regular_colorOf p "color") .nil)
  have child : Regular _ :=
    .block (quiet rfl : Quiet "Text")
      (.plain (.quoted : Regular (.quoted (p.textOr "text" "Button")))
        (.named (quiet rfl : Quiet "style") label .nil))
  unfold button
  rw [pressed_eq]
  exact .block (quiet rfl) (.named (quiet rfl) (regular_insetsOf p "margin")
    (.named (quiet rfl)
      (.block (quiet rfl) (.press (targetOf routes p)
        (.named (quiet rfl) style (.named (quiet rfl) child .nil)))) .nil))

theorem regular_input (p : Props) : Regular (input p) :=
  have side : Regular _ :=
    .call (quiet rfl) (.named (quiet rfl) (regular_borderColorOf p) .nil)
  have border : Regular _ :=
    .block (quiet rfl) (.named (quiet rfl) (regular_radiusOf p) (.named (quiet rfl) side .nil))
  have decoration : Regular _ :=
    .block (quiet rfl) (.named (quiet rfl) .quoted
      (.named (quiet rfl) (regular_insetsOf p "padding") (.named (quiet rfl) border .nil)))
  .block (quiet rfl) (.named (quiet rfl) (regular_insetsOf p "margin")
    (.named (quiet rfl) (.block (quiet rfl) (.named (quiet rfl) decoration .nil)) .nil))

theorem regular_checkbox (p : Props) : Regular (checkbox p) :=
  have box : Regular _ :=
    .call (quiet rfl) (.named (quiet rfl) (.word (quiet rfl))
      (.named (quiet rfl) (.idle (quiet rfl)) .nil))
  have label : Regular _ := .call (quiet rfl) (.plain .quoted .nil)
  .block (quiet rfl) (.named (quiet rfl) (.list (.cons box (.cons label .nil))) .nil)

theorem regular_image (p : Props) : Regular (image p) := by
  unfold image
  split
  · exact regular_nothing
  · exact regular_nothing
  · next src _ _ =>
    have decoration : Regular _ :=
      .block (quiet rfl : Quiet "BoxDecoration")
        (.named (quiet rfl : Quiet "borderRadius") (regular_radiusOf p)
          (.named (quiet rfl : Quiet "border") (regular_framed p) .nil))
    have picture : Regular _ :=
      .block (quiet rfl : Quiet "Image.network") (.plain (.quoted : Regular (.quoted src))
        (.named (quiet rfl : Quiet "fit") (.word (quiet rfl : Quiet "BoxFit.cover")) .nil))
    have clip : Regular _ :=
      .block (quiet rfl : Quiet "ClipRRect")
        (.named (quiet rfl : Quiet "borderRadius") (regular_radiusOf p)
          (.named (quiet rfl : Quiet "child") picture .nil))
    exact .block (quiet rfl) (.named (quiet rfl) (regular_dimensionOf p "width")
      (.named (quiet rfl) (regular_dimensionOf p "height")
        (.named (quiet rfl) (regular_insetsOf p "margin")
          (.named (quiet rfl) (regular_insetsOf p "padding")
            (.named (quiet rfl) decoration (.named (quiet rfl) clip .nil))))))

theorem regular_table (p : Props) : Regular (table p) :=
  have border : Regular _ :=
    .call (quiet rfl) (.named (quiet rfl) (regular_borderColorOf p) .nil)
  have hline : '\n' ∉ "fluttergen: table rows are not generated".toList := by decide
  .block (quiet rfl) (.named (quiet rfl) border
    (.named (quiet rfl) (.remark hline) .nil))

theorem regular_element (routes : Routes) (kind : Kind) (p : Props) {children : List Expr}
    (h : ∀ e ∈ children, Regular e) : Regular (element routes kind p children) := by
  cases kind with
  | container => exact regular_container p h
  | text => exact regular_text p
  | button => exact regular_button routes p
  | input => exact regular_input p
  | checkbox => exact regular_checkbox p
  | image => exact regular_image p
  | table => exact regular_table p
  | unknown _ => exact regular_nothing

def childrenBelow (routes : Routes) (t : DesignTree) (path : List String) (node : Node) :
    List Expr :=
  match node.kind with
  | .container => node.children.filterMap (compileBelow routes t path)
  | _ => []

theorem childrenBelow_leaf {routes : Routes} {t : DesignTree} {path : List String} {node : Node}
    (h : node.kind ≠ .container) : childrenBelow routes t path node = [] := by
  unfold childrenBelow
  split
  · next hk => exact absurd hk h
  · rfl

theorem compileBelow_missing {routes : Routes} {t : DesignTree} {path : List String} {id : String}
    (h : t.get? id = none) : compileBelow routes t path id = none := by
  rw [compileBelow]
  split
  · rfl
  · next node hn => rw [h] at hn; cases hn

theorem compileBelow_repeated {routes : Routes} {t : DesignTree} {path : List String} {id : String}
    (h : id ∈ path) : compileBelow routes t path id = none := by
  rw [compileBelow]
  split
  · rfl
  · rw [dif_pos h]

theorem compileBelow_node {routes : Routes} {t : DesignTree} {path : List String} {id : String}
    {node : Node} (h : t.get? id = some node) (hp : id ∉ path) :
    compileBelow routes t path id =
      some (element routes node.kind node.props (childrenBelow routes t (id :: path) node)) := by
  rw [compileBelow]
  split
  · next hn => rw [h] at hn; cases hn
  · next found hn =>
    cases h.symm.trans hn
    rw [dif_neg hp]
    rfl

/-- Whatever the tree, every widget that is compiled from it is regular. -/
theorem regular_compileBelow (routes : Routes) (t : DesignTree) (path : List String) (id : String) :
    ∀ e, compileBelow routes t path id = some e → Regular e := by
  induction path, id using compileBelow.induct routes t with
  | case1 path id hmissing => simp [compileBelow_missing hmissing]
  | case2 path id node _ hp => simp [compileBelow_repeated hp]
  | case3 path id node hn hp ih =>
    intro e he
    rw [compileBelow_node hn hp] at he
    cases he
    refine regular_element routes node.kind node.props fun f hf => ?_
    unfold childrenBelow at hf
    split at hf
    · obtain ⟨c, _, hc⟩ := List.mem_filterMap.mp hf
      exact ih c f hc
    · cases hf

end Screenwright.Proofs.Widgets
