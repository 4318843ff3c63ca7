import Screenwright.Proofs.Widgets

namespace Screenwright.Proofs.Placement
open Dart Expr Design Screen Widget Lexing Layout Widgets

/-- A character, with columns behind it if it ends a line. -/
def shift (columns : Nat) (c : Char) : List Char :=
  if c = '\n' then '\n' :: List.replicate columns ' ' else [c]

/-- A text with columns behind every line break. -/
def indented (columns : Nat) (s : String) : String :=
  String.ofList (s.toList.flatMap (shift columns))

/-- A text on one line. -/
def Unbroken (s : String) : Prop := '\n' ∉ s.toList

instance (s : String) : Decidable (Unbroken s) := inferInstanceAs (Decidable (¬ _))

variable {columns : Nat}

theorem indented_append (columns : Nat) (s t : String) :
    indented columns (s ++ t) = indented columns s ++ indented columns t := by
  simp [indented]

theorem flatMap_shift {cs : List Char} (h : '\n' ∉ cs) : cs.flatMap (shift columns) = cs := by
  induction cs with
  | nil => rfl
  | cons c cs ih =>
    obtain ⟨hc, hcs⟩ := not_or.mp (List.mem_cons.not.mp h)
    rw [List.flatMap_cons, ih hcs, shift, if_neg (Ne.symm hc), List.singleton_append]

theorem Unbroken.indented {s : String} (h : Unbroken s) : indented columns s = s := by
  rw [Placement.indented, flatMap_shift h, String.ofList_toList]

theorem indented_break (columns : Nat) {s : String} (h : Unbroken s) :
    indented columns (s ++ "\n") = s ++ "\n" ++ pad columns := by
  rw [indented_append, h.indented, String.append_assoc]
  congr 1
  exact String.toList_inj.mp (by simp [indented, shift, pad])

theorem pad_add (m n : Nat) : pad (m + n) = pad n ++ pad m := by
  rw [Nat.add_comm, pad, List.replicate_add, String.ofList_append]
  rfl

theorem unbroken_pad (n : Nat) : Unbroken (pad n) := by
  intro h
  rw [pad, String.toList_ofList] at h
  exact absurd (List.eq_of_mem_replicate h) (by decide)

theorem Unbroken.append {s t : String} (hs : Unbroken s) (ht : Unbroken t) : Unbroken (s ++ t) := by
  simpa [Unbroken] using ⟨hs, ht⟩

theorem unbroken_quiet {s : String} (h : Quiet s) : Unbroken s :=
  fun hm => absurd (h.1 _ hm) (by decide)

theorem not_mem_escape (c : Char) : '\n' ∉ escape c := by
  unfold escape
  split
  case h_7 h _ _ => simpa using Ne.symm h
  all_goals decide

theorem unbroken_quote (s : String) : Unbroken (quote s) := by
  have hescaped : '\n' ∉ s.toList.flatMap escape := by
    intro h
    obtain ⟨c, _, hc⟩ := List.mem_flatMap.mp h
    exact not_mem_escape c hc
  simpa [Unbroken, quote] using hescaped

theorem unbroken_press (target : Option String) (indent : Nat) :
    Unbroken ((press target).render indent) := by
  cases target with
  | none => exact (by decide : Unbroken "() \x7b\x7d")
  | some path =>
    have hcall : Unbroken "() => Navigator.pushNamed(context, " := by decide
    have hclose : Unbroken ")" := by decide
    exact (hcall.append (unbroken_quote path)).append hclose

theorem render_press (target : Option String) (indent other : Nat) :
    (press target).render indent = (press target).render other := by
  cases target <;> rfl

theorem indented_labelled {name : Option String} (h : ∀ n, name = some n → Unbroken n)
    (value : String) :
    indented columns (labelled name value) = labelled name (indented columns value) := by
  cases name with
  | none => rfl
  | some n =>
    have hcolon : Unbroken ": " := by decide
    simp only [labelled, indented_append, (h n rfl).indented, hcolon.indented]

theorem indented_commas (columns : Nat) (texts : List String) :
    indented columns (", ".intercalate texts) =
      ", ".intercalate (texts.map (indented columns)) := by
  induction texts with
  | nil => rfl
  | cons s texts ih =>
    cases texts with
    | nil => simp
    | cons t texts =>
      have hcomma : Unbroken ", " := by decide
      rw [List.map_cons, List.map_cons, String.intercalate_cons_cons, String.intercalate_cons_cons,
        indented_append, indented_append, hcomma.indented, ih, List.map_cons]

theorem indented_line (columns indent : Nat) (text : String) :
    pad columns ++ indented columns (line indent text) =
      line (indent + columns) (indented columns text) ++ pad columns := by
  have hend : indented columns ",\n" = ",\n" ++ pad columns :=
    indented_break columns (by decide : Unbroken ",")
  simp only [line, indented_append, (unbroken_pad indent).indented, hend, pad_add,
    String.append_assoc]

theorem indented_lines (columns indent : Nat) (texts : List String) :
    pad columns ++ indented columns ("".intercalate (texts.map (line indent))) =
      "".intercalate ((texts.map (indented columns)).map (line (indent + columns))) ++
        pad columns := by
  induction texts with
  | nil => simp [indented]
  | cons s texts ih =>
    calc pad columns ++ indented columns ("".intercalate ((s :: texts).map (line indent)))
        = pad columns ++ indented columns (line indent s) ++
            indented columns ("".intercalate (texts.map (line indent))) := by
          rw [List.map_cons, concat_cons, indented_append, String.append_assoc]
      _ = line (indent + columns) (indented columns s) ++ (pad columns ++
            indented columns ("".intercalate (texts.map (line indent)))) := by
          rw [indented_line, String.append_assoc]
      _ = _ := by
          rw [ih, List.map_cons, List.map_cons, concat_cons, String.append_assoc]

theorem indented_enclosed {opening closing body body' : String} (ho : Unbroken opening)
    (hc : Unbroken closing) (hb : pad columns ++ indented columns body = body' ++ pad columns)
    (indent : Nat) :
    indented columns (opening ++ "\n" ++ body ++ pad indent ++ closing) =
      opening ++ "\n" ++ body' ++ pad (indent + columns) ++ closing := by
  simp only [indented_append _ _ closing, indented_append _ _ (pad indent),
    indented_append _ _ body, indented_break columns ho, (unbroken_pad indent).indented,
    hc.indented, pad_add]
  calc opening ++ "\n" ++ pad columns ++ indented columns body ++ pad indent ++ closing
      = opening ++ "\n" ++ (pad columns ++ indented columns body) ++ pad indent ++ closing := by
        simp only [String.append_assoc]
    _ = opening ++ "\n" ++ body' ++ (pad columns ++ pad indent) ++ closing := by
        simp only [hb, String.append_assoc]

mutual

/-- Further to the right, an expression has the columns behind every line break. -/
theorem render_placed {e : Expr} (h : Regular e) (indent columns : Nat) :
    e.render (indent + columns) = indented columns (e.render indent) := by
  cases h with
  | word ht => exact (unbroken_quiet ht).indented.symm
  | quoted => exact (unbroken_quote _).indented.symm
  | @call callee args hf ha =>
    have hopen : Unbroken "(" := by decide
    have hclose : Unbroken ")" := by decide
    simp only [render, indented_append, indented_commas, (unbroken_quiet hf).indented,
      hopen.indented, hclose.indented, renderArgs_placed ha]
  | @block callee args hf ha =>
    have hopen : Unbroken "(" := by decide
    have hclose : Unbroken ")" := by decide
    have hin := indented_enclosed ((unbroken_quiet hf).append hopen) hclose
      (indented_lines columns (indent + 2) (renderArgs (indent + 2) args)) indent
    rw [← renderArgs_placed ha, Nat.add_right_comm] at hin
    simpa [render, String.append_assoc] using hin.symm
  | @list items hi =>
    cases hi with
    | nil => exact (by decide : Unbroken "[]").indented.symm
    | @cons item items hi his =>
      have hopen : Unbroken "[" := by decide
      have hclose : Unbroken "]" := by decide
      have hin := indented_enclosed hopen hclose
        (indented_lines columns (indent + 2) (renderItems (indent + 2) (item :: items))) indent
      rw [← renderItems_placed (.cons hi his), Nat.add_right_comm] at hin
      simpa [render, String.append_assoc] using hin.symm
  | @remark comment hc =>
    have hopen : Unbroken "[" := by decide
    have hslashes : Unbroken "// " := by decide
    have hclose : Unbroken "]" := by decide
    have hline : pad columns ++ indented columns (pad (indent + 2) ++ "// " ++ comment ++ "\n") =
        pad (indent + columns + 2) ++ "// " ++ comment ++ "\n" ++ pad columns := by
      rw [indented_break columns (((unbroken_pad _).append hslashes).append hc),
        Nat.add_right_comm indent columns, pad_add (indent + 2)]
      simp only [String.append_assoc]
    have hin := indented_enclosed hopen hclose hline indent
    simpa [render, String.append_assoc] using hin.symm
  | @idle params hp =>
    have hopen : Unbroken "(" := by decide
    have hclose : Unbroken ") \x7b\x7d" := by decide
    exact ((hopen.append (unbroken_quiet hp)).append hclose).indented.symm

theorem renderArgs_placed {args : List (Option String × Expr)} (h : RegularArgs args)
    (indent columns : Nat) :
    renderArgs (indent + columns) args = (renderArgs indent args).map (indented columns) := by
  cases h with
  | nil => rfl
  | plain hv ha =>
    rw [renderArgs, renderArgs, List.map_cons, indented_labelled (by simp), render_placed hv,
      renderArgs_placed ha]
  | @named name value args hn hv ha =>
    have hname : ∀ n, some name = some n → Unbroken n := by
      intro n he
      cases he
      exact unbroken_quiet hn
    rw [renderArgs, renderArgs, List.map_cons, indented_labelled hname, render_placed hv,
      renderArgs_placed ha]
  | press target ha =>
    have hname : ∀ n, some "onPressed" = some n → Unbroken n := by
      intro n he
      cases he
      decide
    rw [renderArgs, renderArgs, List.map_cons, indented_labelled hname,
      (unbroken_press target indent).indented, render_press target (indent + columns) indent,
      renderArgs_placed ha]

theorem renderItems_placed {items : List Expr} (h : RegularItems items) (indent columns : Nat) :
    renderItems (indent + columns) items = (renderItems indent items).map (indented columns) := by
  cases h with
  | nil => rfl
  | cons hi his =>
    rw [renderItems, renderItems, List.map_cons, render_placed hi, renderItems_placed his]

end

/-- A text that begins with a letter of a name, so it is not empty and not indented. -/
def Begins (s : String) : Prop := s.toList.head?.any isWordChar = true

instance (s : String) : Decidable (Begins s) := inferInstanceAs (Decidable (_ = _))

theorem Begins.append {s : String} (h : Begins s) (t : String) : Begins (s ++ t) := by
  unfold Begins at h ⊢
  rw [String.toList_append]
  cases hs : s.toList with
  | nil => simp [hs] at h
  | cons c cs => simpa [hs] using h

theorem Begins.ne_empty {s : String} (h : Begins s) : s ≠ "" := by
  rintro rfl
  exact absurd h (by decide)

theorem begins_call {callee : String} (h : Begins callee) (args : List (Option String × Expr))
    (indent : Nat) : Begins ((Expr.call callee args).render indent) := by
  simpa [render, String.append_assoc] using h.append _

theorem begins_block {callee : String} (h : Begins callee) (args : List (Option String × Expr))
    (indent : Nat) : Begins ((Expr.block callee args).render indent) := by
  simpa [render, String.append_assoc] using h.append _

/-- The widget of a node begins with the name of what it calls. -/
theorem begins_element (routes : Routes) (kind : Kind) (p : Props) (children : List Expr)
    (indent : Nat) : Begins ((element routes kind p children).render indent) := by
  cases kind with
  | container => exact begins_block (by decide) _ indent
  | text => exact begins_block (by decide) _ indent
  | button => exact begins_block (by decide) _ indent
  | input => exact begins_block (by decide) _ indent
  | checkbox => exact begins_block (by decide) _ indent
  | image =>
    simp only [element, image]
    split
    · exact begins_call (by decide) _ indent
    · exact begins_call (by decide) _ indent
    · exact begins_block (by decide) _ indent
  | table => exact begins_block (by decide) _ indent
  | unknown tag => exact begins_call (by decide) _ indent

theorem begins_compileBelow {routes : Routes} {t : DesignTree} {path : List String} {id : String}
    {e : Expr} (h : compileBelow routes t path id = some e) (indent : Nat) :
    Begins (e.render indent) := by
  cases hn : t.get? id with
  | none =>
    rw [compileBelow_missing hn] at h
    cases h
  | some node =>
    by_cases hp : id ∈ path
    · rw [compileBelow_repeated hp] at h
      cases h
    · rw [compileBelow_node hn hp] at h
      cases h
      exact begins_element routes node.kind node.props _ indent

/-- Further to the right, the code of a node has the columns behind every line break, and nothing
else is changed: it starts at once, and it reads as the same tokens, so every literal says the
same. -/
theorem code_placed (routes : Routes) (t : DesignTree) (id : String) (indent columns : Nat) :
    code routes t id (indent + columns) = indented columns (code routes t id indent) ∧
      (code routes t id indent).toList.head? ≠ some ' ' ∧
      ∃ ts, lex (code routes t id indent) = some ts ∧
        lex (code routes t id (indent + columns)) = some ts := by
  unfold code
  cases hc : compile routes t id with
  | none => exact ⟨rfl, by simp, [], rfl, rfl⟩
  | some e =>
    have hr : Regular e := regular_compileBelow routes t [] id e hc
    have hb : Begins (e.render indent) := begins_compileBelow hc indent
    refine ⟨render_placed hr indent columns, ?_, tokens e, (hr.reads indent).lex_eq,
      (hr.reads (indent + columns)).lex_eq⟩
    intro hspace
    rw [Begins, hspace] at hb
    exact absurd hb (by decide)

end Screenwright.Proofs.Placement
