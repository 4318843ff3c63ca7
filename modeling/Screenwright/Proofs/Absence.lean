import Screenwright.Design.Document
import Screenwright.Proofs.Likeness

namespace Screenwright.Proofs.Absence
open Dart Expr Design Style Screen Widget Likeness

def isOther : PropValue → Bool
  | .other _ => true
  | _ => false

/-- The properties without those that hold no scalar. -/
def scalars (p : Props) : Props := p.filter fun e => !isOther e.2

/-- A design whose nodes have lost the properties that hold no scalar. -/
def bared (t : DesignTree) : DesignTree :=
  t.mapNodes (fun node => { node with props := scalars node.props }) fun _ => rfl

/-- A list or an object that counts as a text or as a gap, and so stands in the way of what would
be shown without it. -/
def Misread (kind : Kind) (p : Props) : Prop :=
  match kind with
  | .text => ∃ v, p.get? "fontFamily" = some (.other v) ∧ v ≠ .null
  | .button => ∃ v, p.get? "text" = some (.other v) ∧ v ≠ .null
  | .container => (∃ v, p.firstTruthy gapKeys = some (.other v)) ∧ ¬ (gapOf (scalars p)).isZero
  | _ => False

variable {p : Props}

theorem get?_scalars (p : Props) (key : String) :
    (scalars p).get? key = (p.get? key).filter fun value => !isOther value :=
  p.get?_filter _ key

/-- A reader that takes what holds no scalar for absent reads the same without it. -/
theorem read_scalars {α : Type} {f : Option PropValue → α}
    (h : ∀ v, f (some (.other v)) = f none) (p : Props) (key : String) :
    f ((scalars p).get? key) = f (p.get? key) := by
  rw [get?_scalars]
  cases p.get? key with
  | none => rfl
  | some value =>
    cases value with
    | other v => exact (h v).symm
    | _ => rfl

theorem text?_scalars (p : Props) (key : String) : (scalars p).text? key = p.text? key :=
  read_scalars (f := fun value => value.bind PropValue.text?) (fun _ => rfl) p key

theorem lengthOf_scalars (p : Props) (key : String) (fallback : Binary64) :
    lengthOf ((scalars p).get? key) fallback = lengthOf (p.get? key) fallback :=
  read_scalars (f := fun value => lengthOf value fallback) (fun _ => rfl) p key

theorem letterSpacingOf_scalars (p : Props) (key : String) :
    letterSpacingOf ((scalars p).get? key) = letterSpacingOf (p.get? key) :=
  read_scalars (fun _ => rfl) p key

theorem insetsOf_scalars (p : Props) (key : String) : insetsOf (scalars p) key = insetsOf p key :=
  congrArg Insets.toDart (read_scalars (fun _ => rfl) p key)

theorem dimensionOf_scalars (p : Props) (key : String) :
    dimensionOf (scalars p) key = dimensionOf p key :=
  congrArg Dimension.toDart (read_scalars (fun _ => rfl) p key)

theorem colorOf_scalars (p : Props) (key : String) : colorOf (scalars p) key = colorOf p key := by
  rw [colorOf, text?_scalars, ← colorOf]

theorem borderColorOf_scalars (p : Props) : borderColorOf (scalars p) = borderColorOf p := by
  rw [borderColorOf, text?_scalars, ← borderColorOf]

theorem radiusOf_scalars (p : Props) : radiusOf (scalars p) = radiusOf p := by
  rw [radiusOf, lengthOf_scalars, ← radiusOf]

theorem framed_scalars (p : Props) : framed (scalars p) = framed p := by
  rw [framed, borderColorOf_scalars, ← framed]

/-- What is shown as text changes where a list or an object gives way to a default. -/
theorem textOr_scalars (p : Props) (key default : String) :
    (scalars p).textOr key default = p.textOr key default ∨
      (scalars p).textOr key default = default ∧ p.textOr key default = "" ∧
        ∃ v, p.get? key = some (.other v) ∧ v ≠ .null := by
  unfold Props.textOr
  rw [get?_scalars]
  cases hv : p.get? key with
  | none => exact .inl rfl
  | some value =>
    cases value with
    | other v =>
      by_cases hn : v = .null
      · subst hn
        exact .inl rfl
      · have ht : (PropValue.other v).isTruthy = true := by
          cases v <;> simp_all [PropValue.isTruthy]
        refine .inr ⟨rfl, ?_, v, rfl, hn⟩
        simp [ht, PropValue.display]
    | _ => exact .inl rfl

theorem textOr_scalars_empty (p : Props) (key : String) :
    (scalars p).textOr key "" = p.textOr key "" := by
  rcases textOr_scalars p key "" with h | ⟨h, h', _⟩
  · exact h
  · rw [h, h']

theorem firstTruthy_scalars {keys : List String}
    (h : ∀ v, p.firstTruthy keys ≠ some (.other v)) :
    (scalars p).firstTruthy keys = p.firstTruthy keys := by
  unfold Props.firstTruthy at h ⊢
  induction keys with
  | nil => rfl
  | cons key keys ih =>
    have hget := get?_scalars p key
    rw [List.filterMap_cons] at h ⊢
    rw [List.filterMap_cons]
    cases hv : p.get? key with
    | none =>
      rw [hv] at h hget
      rw [hget]
      exact ih h
    | some value =>
      rw [hv] at h hget
      cases ht : value.isTruthy with
      | true =>
        rw [List.find?_cons_of_pos ht] at h ⊢
        have hs : isOther value = false := by
          cases value with
          | other v => exact absurd rfl (h v)
          | _ => rfl
        have hkept : (scalars p).get? key = some value := by simpa [Option.filter, hs] using hget
        rw [hkept, List.find?_cons_of_pos ht]
      | false =>
        have hf : ¬ value.isTruthy = true := by simp [ht]
        rw [List.find?_cons_of_neg hf] at h ⊢
        cases hs : isOther value with
        | true =>
          have hlost : (scalars p).get? key = none := by simpa [Option.filter, hs] using hget
          rw [hlost]
          exact ih h
        | false =>
          have hkept : (scalars p).get? key = some value := by simpa [Option.filter, hs] using hget
          rw [hkept, List.find?_cons_of_neg hf]
          exact ih h

theorem gapOf_eq_zero {v : Json.Value} (h : p.firstTruthy gapKeys = some (.other v)) :
    gapOf p = zeroLength := by
  rw [gapOf, h]
  rfl

theorem isZero_zeroLength : zeroLength.isZero = true := by decide

theorem spaced_scalars (h : ¬ Misread .container p) (es : List Expr) :
    spaced (gapOf (scalars p)) es = spaced (gapOf p) es := by
  by_cases hv : ∃ v, p.firstTruthy gapKeys = some (.other v)
  · obtain ⟨v, hv⟩ := hv
    have hz : (gapOf (scalars p)).isZero := by
      by_contra hz
      exact h ⟨⟨v, hv⟩, hz⟩
    rw [gapOf_eq_zero hv, spaced, spaced, if_pos hz, if_pos isZero_zeroLength]
  · have hsame : (scalars p).firstTruthy gapKeys = p.firstTruthy gapKeys :=
      firstTruthy_scalars fun v he => hv ⟨v, he⟩
    rw [gapOf, gapOf, hsame]

/-- Between two children a gap shows, unless it is zero. -/
theorem spaced_scalars_ne (h : Misread .container p) (e : Expr) :
    spaced (gapOf (scalars p)) [e, e] ≠ spaced (gapOf p) [e, e] := by
  obtain ⟨⟨v, hv⟩, hz⟩ := h
  rw [gapOf_eq_zero hv, spaced, spaced, if_neg hz, if_pos isZero_zeroLength]
  intro he
  have hlength := congrArg List.length he
  simp at hlength

theorem textOr_scalars_eq_iff {key default : String} (hd : default ≠ "") :
    (scalars p).textOr key default = p.textOr key default ↔
      ¬ ∃ v, p.get? key = some (.other v) ∧ v ≠ .null := by
  constructor
  · rintro he ⟨v, hv, hn⟩
    have ht : (PropValue.other v).isTruthy = true := by
      cases v <;> simp_all [PropValue.isTruthy]
    have hgone : (scalars p).get? key = none := by rw [get?_scalars, hv]; rfl
    simp only [Props.textOr, hgone, hv, ht, if_true, PropValue.display] at he
    exact hd he
  · intro hn
    rcases textOr_scalars p key default with h | ⟨_, _, hv⟩
    · exact h
    · exact absurd hv hn

/-- The widgets that change with the properties that hold no scalar are the misread ones. -/
theorem element_scalars_iff (routes : Routes) (kind : Kind) (p : Props) :
    (∀ es, element routes kind (scalars p) es = element routes kind p es) ↔ ¬ Misread kind p := by
  cases kind with
  | container =>
    simp only [element, container, dimensionOf_scalars, insetsOf_scalars, colorOf_scalars,
      radiusOf_scalars, framed_scalars, text?_scalars]
    constructor
    · intro h hm
      have he := h [nothing, nothing]
      simp only [named, block.injEq, List.cons.injEq, Prod.mk.injEq, list.injEq, true_and,
        and_true] at he
      exact spaced_scalars_ne hm nothing he
    · intro hm es
      rw [spaced_scalars hm]
  | text =>
    have hfont : (scalars p).textOr "fontFamily" "Arial" = p.textOr "fontFamily" "Arial" ↔
        ¬ Misread .text p := textOr_scalars_eq_iff (by decide)
    simp [element, text, named, plain, textOr_scalars_empty, lengthOf_scalars, colorOf_scalars,
      text?_scalars, letterSpacingOf_scalars, hfont]
  | button =>
    have htext : (scalars p).textOr "text" "Button" = p.textOr "text" "Button" ↔
        ¬ Misread .button p := textOr_scalars_eq_iff (by decide)
    simp [element, button, pressed, named, plain, insetsOf_scalars, colorOf_scalars,
      radiusOf_scalars, text?_scalars, htext]
  | input =>
    simp [element, input, Misread, insetsOf_scalars, radiusOf_scalars, borderColorOf_scalars,
      textOr_scalars_empty]
  | checkbox => simp [element, checkbox, Misread, textOr_scalars_empty]
  | image =>
    simp [element, image, Misread, dimensionOf_scalars, insetsOf_scalars, radiusOf_scalars,
      framed_scalars, text?_scalars]
  | table => simp [element, table, Misread, borderColorOf_scalars]
  | unknown tag => simp [element, Misread]

/-- Without misread widgets, properties that hold no scalar leave no trace in the code. -/
theorem code_bared (routes : Routes) (t : DesignTree)
    (h : ∀ node ∈ t.nodes, ¬ Misread node.kind node.props) (id : String) (indent : Nat) :
    code routes (bared t) id indent = code routes t id indent := by
  have htwin (id : String) : Option.Rel (Twin Eq routes) (t.get? id) ((bared t).get? id) := by
    rw [bared, DesignTree.get?_mapNodes]
    cases hn : t.get? id with
    | none => exact .none
    | some node =>
      refine .some ⟨rfl, rfl, fun es es' hes => ?_⟩
      have hm := h node (List.mem_of_find?_eq_some hn)
      rw [List.forall₂_eq_eq_eq] at hes
      rw [hes, (element_scalars_iff routes node.kind node.props).mpr hm]
  have hsame : compile routes t id = compile routes (bared t) id := by
    have hrel := rel_compileBelow htwin [] id
    unfold compile
    generalize compileBelow routes t [] id = a at hrel
    generalize compileBelow routes (bared t) [] id = b at hrel
    cases hrel with
    | none => rfl
    | some he => rw [he]
  rw [code, code, hsame]

def column : Node where
  id := "ROOT"
  kind := .container
  props := .ofList [("padding", .other (.array [])), ("gap", .other .null), ("rowGap", .text "8px")]
  children := ["note", "go"]

def note : Node where
  id := "note"
  kind := .text
  props := .ofList [("text", .other (.object [])), ("fontFamily", .other .null)]

def go : Node where
  id := "go"
  kind := .button
  props := .ofList [("margin", .other (.array [.null]))]

theorem code_bared_column :
    (∀ node ∈ (DesignTree.ofList [column, note, go]).nodes, ¬ Misread node.kind node.props) ∧
      code {} (bared (.ofList [column, note, go])) "ROOT" 2 =
        code {} (.ofList [column, note, go]) "ROOT" 2 := by
  have hcolumn : ¬ Misread column.kind column.props := by
    rintro ⟨⟨v, hv⟩, _⟩
    have hfirst : column.props.firstTruthy gapKeys = some (.text "8px") := rfl
    cases hfirst.symm.trans hv
  have hnote : ¬ Misread note.kind note.props := by
    rintro ⟨v, hv, hn⟩
    have hfont : note.props.get? "fontFamily" = some (.other .null) := rfl
    cases hfont.symm.trans hv
    exact hn rfl
  have hgo : ¬ Misread go.kind go.props := by
    rintro ⟨v, hv, _⟩
    have htext : go.props.get? "text" = none := rfl
    cases htext.symm.trans hv
  have hnodes : (DesignTree.ofList [column, note, go]).nodes = [column, note, go] := rfl
  have h : ∀ node ∈ (DesignTree.ofList [column, note, go]).nodes,
      ¬ Misread node.kind node.props := by
    rw [hnodes]
    simpa using ⟨hcolumn, hnote, hgo⟩
  exact ⟨h, code_bared {} _ h "ROOT" 2⟩

/-- A button whose text is an empty list. It shows nothing, where one without a text shows a
default. -/
def unlabelled : String :=
  "\x7b\"ROOT\":\x7b\"type\":\"Button\",\"props\":\x7b\"text\":[]\x7d\x7d\x7d"

theorem code_bared_unlabelled :
    ∃ t, DesignTree.parse unlabelled = .ok t ∧ code {} (bared t) "ROOT" 0 ≠ code {} t "ROOT" 0 := by
  have h : (DesignTree.parse unlabelled).toOption.map (fun t =>
      decide (code {} (bared t) "ROOT" 0 = code {} t "ROOT" 0)) = some false := by
    decide +kernel
  cases hp : DesignTree.parse unlabelled with
  | error e => simp [hp, Except.toOption] at h
  | ok t => exact ⟨t, rfl, by simpa [hp, Except.toOption] using h⟩

end Screenwright.Proofs.Absence
