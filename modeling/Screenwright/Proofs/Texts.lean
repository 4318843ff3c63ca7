import Mathlib.Data.List.TakeWhile
import Screenwright.Proofs.Outlines

namespace Screenwright.Proofs.Texts
open Json Outline Decode Canonical Numerals Scanning Values Outlines

def HasValue (o : Outline) (v : Value) : Prop := ∃ depth, value depth o = .ok v

/-- A text of which an outline is made wherever a value is awaited, and how it is understood. -/
def StandsFor {α : Type} (R : Outline → α → Prop) (text : List Char) (a : α) : Prop :=
  ∀ rest, Clear rest → ∃ o, R o a ∧ skipBlank o.stop = skipBlank rest ∧
    ∀ outer, build outer .value (tokens (text ++ rest)) = resume (complete o outer) (tokens rest)

/-- A text that is read as a value wherever a value is awaited. -/
abbrev Stands : List Char → Value → Prop := StandsFor HasValue

/-- A text that is a string wherever a key is awaited, and how that is understood. -/
def NamesFor {κ : Type} (Q : Except Fault String → κ → Prop) (text : List Char) (key : κ) : Prop :=
  ∀ rest, Clear rest → ∃ read start stop, Q read key ∧ tokens (text ++ rest) =
    ⟨.scalar (.string read), start, stop⟩ :: tokens rest

def HasName (read : Except Fault String) (name : String) : Prop := read = .ok name

/-- A text that is read as a name wherever a key is awaited. -/
abbrev Names : List Char → String → Prop := NamesFor HasName

variable {source : String} {v : Value} {text rest : List Char}

theorem stands_of_parse (h : Value.parse source = .ok v) : Stands source.toList v := by
  intro rest hrest
  obtain ⟨hvalue, hstop⟩ := whole_ok_iff.mp h
  obtain ⟨o, hkeeps, ho, hbuild⟩ := build_append hrest .nil .value hvalue
  have hskip : skipBlank o.stop = skipBlank rest := ho ▸ skipBlank_append_nil hstop rest
  refine ⟨o, ⟨depthLimit, (hkeeps _ v hvalue).2⟩, hskip, fun outer => ?_⟩
  rw [← tokens_congr hskip]
  exact hbuild outer

theorem fits_of_parse (h : Value.parse source = .ok v) : ∀ n ∈ numbers v, Fits n := by
  obtain ⟨hvalue, _⟩ := whole_ok_iff.mp h
  obtain ⟨o, hkeeps, _⟩ := build_append clear_nil .nil .value hvalue
  exact (hkeeps _ v hvalue).1

theorem StandsFor.reads {α : Type} {R : Outline → α → Prop} {a : α}
    (h : StandsFor R source.toList a) :
    R (Outline.read source.toList) a ∧ skipBlank (Outline.read source.toList).stop = [] := by
  obtain ⟨o, ho, hstop, hbuild⟩ := h [] clear_nil
  have hread : Outline.read source.toList = o := by
    have hnil := hbuild []
    rwa [List.append_nil] at hnil
  rw [hread]
  exact ⟨ho, hstop⟩

theorem parse_of_stands (h : Stands source.toList v) (hnesting : nesting v < depthLimit) :
    Value.parse source = .ok v := by
  obtain ⟨⟨depth, hvalue⟩, hstop⟩ := h.reads
  exact whole_ok_iff.mpr ⟨value_of_nesting hvalue hnesting, hstop⟩

theorem clear_blanks {blanks : List Char} (h : skipBlank blanks = []) (hrest : Clear rest) :
    Clear (blanks ++ rest) := by
  cases blanks with
  | nil => exact hrest
  | cons c cs =>
    have hc : isBlank c = true := List.dropWhile_eq_nil_iff.mp h c List.mem_cons_self
    simp only [isBlank, Bool.or_eq_true, decide_eq_true_eq] at hc
    rcases hc with ((rfl | rfl) | rfl) | rfl <;> exact clear_cons (by decide) _

/-- Blanks around a text change nothing. -/
theorem StandsFor.blanks {α : Type} {R : Outline → α → Prop} {a : α} {before after : List Char}
    (h : StandsFor R text a) (hbefore : skipBlank before = []) (hafter : skipBlank after = []) :
    StandsFor R (before ++ (text ++ after)) a := by
  intro rest hrest
  obtain ⟨o, ho, hstop, hbuild⟩ := h (after ++ rest) (clear_blanks hafter hrest)
  have hskip := skipBlank_append_nil hafter rest
  refine ⟨o, ho, hstop.trans hskip, fun outer => ?_⟩
  rw [List.append_assoc, List.append_assoc, tokens_congr (skipBlank_append_nil hbefore _), hbuild,
    tokens_congr hskip]

theorem NamesFor.blanks {κ : Type} {Q : Except Fault String → κ → Prop} {key : κ}
    {before after : List Char} (h : NamesFor Q text key) (hbefore : skipBlank before = [])
    (hafter : skipBlank after = []) : NamesFor Q (before ++ (text ++ after)) key := by
  intro rest hrest
  obtain ⟨read, start, stop, hread, htokens⟩ := h (after ++ rest) (clear_blanks hafter hrest)
  refine ⟨read, start, stop, hread, ?_⟩
  rw [List.append_assoc, List.append_assoc, tokens_congr (skipBlank_append_nil hbefore _), htokens,
    tokens_congr (skipBlank_append_nil hafter rest)]

def IsScalar (o : Outline) : Prop := ∃ s start stop, o = .scalar s start stop

/-- A step that does not lead to a scalar: it begins or ends a container, or stays in one. -/
def Step.Compound : Step → Prop
  | .next frames await => frames ≠ [] ∨ await ≠ .value
  | .done o => ¬ IsScalar o

theorem cutOff_compound {o : Outline} {frames : List Frame} (h : frames ≠ [] ∨ ¬ IsScalar o) :
    ¬ IsScalar (cutOff o frames) := by
  induction frames generalizing o with
  | nil => exact h.resolve_left (absurd rfl)
  | cons frame frames ih =>
    cases frame <;> exact ih (.inr fun ⟨_, _, _, h⟩ => nomatch h)

theorem not_isScalar_list (start : List Char) (items : List Outline) (tail : ListTail) :
    ¬ IsScalar (.list start items tail) := fun ⟨_, _, _, h⟩ => nomatch h

theorem not_isScalar_object (start : List Char) (members : List (Key × Outline))
    (tail : ObjectTail) : ¬ IsScalar (.object start members tail) := fun ⟨_, _, _, h⟩ => nomatch h

theorem complete_compound {o : Outline} {frames : List Frame}
    (h : frames ≠ [] ∨ ¬ IsScalar o) : Step.Compound (complete o frames) := by
  cases frames with
  | nil => exact h.resolve_left (absurd rfl)
  | cons frame frames => cases frame <;> exact .inr fun h => nomatch h

theorem beginValue_compound {frames : List Frame} (h : frames ≠ []) (t : Token) :
    Step.Compound (beginValue frames t) := by
  obtain ⟨lexeme, start, stop⟩ := t
  cases lexeme with
  | scalar s => exact complete_compound (.inl h)
  | mark m =>
    cases m with
    | listOpen | objectOpen => exact .inr fun h => nomatch h
    | _ => exact cutOff_compound (.inl h)
  | _ => exact cutOff_compound (.inl h)

theorem beginMember_compound (frames : List Frame) (start : List Char)
    (members : List (Key × Outline)) (t : Token) :
    Step.Compound (beginMember frames start members t) := by
  have hcut (tail : ObjectTail) : ¬ IsScalar (cutOff (.object start members.reverse tail) frames) :=
    cutOff_compound (.inr (not_isScalar_object _ _ _))
  obtain ⟨lexeme, place, stop⟩ := t
  cases lexeme with
  | scalar s =>
    cases s with
    | string read => exact .inr fun h => nomatch h
    | _ => exact hcut _
  | _ => exact hcut _

theorem step_compound {frames : List Frame} {await : Await} (h : frames ≠ [] ∨ await ≠ .value)
    (t : Token) : Step.Compound (step frames await t) := by
  have hlist (start items tail) : ¬ IsScalar (cutOff (.list start items tail) frames) :=
    cutOff_compound (.inr (not_isScalar_list _ _ _))
  have hobject (start members tail) : ¬ IsScalar (cutOff (.object start members tail) frames) :=
    cutOff_compound (.inr (not_isScalar_object _ _ _))
  have hfirst (frame : Frame) := beginValue_compound (List.cons_ne_nil frame frames) t
  have hmember := fun start members => beginMember_compound frames start members t
  cases await with
  | value => exact beginValue_compound (h.resolve_right (absurd rfl)) t
  | list start items =>
    simp only [step]
    split
    · exact complete_compound (.inr (not_isScalar_list _ _ _))
    · exact hfirst _
    · exact .inr fun h => nomatch h
    · exact hlist _ _ _
  | item start items =>
    simp only [step]
    split
    · exact hlist _ _ _
    · exact hfirst _
  | object start members =>
    simp only [step]
    split
    · exact complete_compound (.inr (not_isScalar_object _ _ _))
    · exact hmember _ _
    · exact .inr fun h => nomatch h
    · exact hobject _ _ _
  | key start members =>
    simp only [step]
    split
    · exact hobject _ _ _
    · exact hmember _ _
  | colon start members key =>
    simp only [step]
    split
    · exact .inl (List.cons_ne_nil _ _)
    · exact hobject _ _ _

theorem resume_compound {next : Step} {ts : List Token} (h : Step.Compound next)
    (hbuild : ∀ {frames : List Frame} {await : Await}, frames ≠ [] ∨ await ≠ .value →
      ¬ IsScalar (build frames await ts)) : ¬ IsScalar (resume next ts) := by
  cases next with
  | next frames await => exact hbuild h
  | done o => exact h

/-- Once a container has begun, no scalar comes out. -/
theorem build_compound {frames : List Frame} {await : Await} (h : frames ≠ [] ∨ await ≠ .value)
    (ts : List Token) : ¬ IsScalar (build frames await ts) := by
  induction ts generalizing frames await with
  | nil =>
    cases await <;> refine cutOff_compound ?_
    case value => exact .inl (h.resolve_right (absurd rfl))
    case list | item => exact .inr (not_isScalar_list _ _ _)
    case object | key | colon => exact .inr (not_isScalar_object _ _ _)
  | cons t ts ih =>
    rw [build_cons]
    exact resume_compound (step_compound h t) fun h => ih h

theorem eq_scalar_of_string {o : Outline} {depth : Nat} {name : String}
    (h : value depth o = .ok (.string name)) :
    ∃ start stop, o = .scalar (.string (.ok name)) start stop := by
  rcases value_cases h with ⟨s, start, stop, rfl, hs⟩ | ⟨_, _, _, _, _, hv, _⟩ |
    ⟨_, _, _, _, _, hv, _⟩
  · rcases scalar_cases hs with ⟨_, hv⟩ | ⟨_, _, hv⟩ | ⟨_, _, hv⟩ | ⟨_, rfl, hv⟩
    · cases hv
    · cases hv
    · cases hv
    · cases hv
      exact ⟨start, stop, rfl⟩
  · cases hv
  · cases hv

theorem build_mark_compound (m : Mark) (start stop : List Char) (ts : List Token) :
    ¬ IsScalar (build [] .value (⟨.mark m, start, stop⟩ :: ts)) := by
  have hstep : Step.Compound (step [] .value ⟨.mark m, start, stop⟩) := by
    cases m with
    | listOpen | objectOpen => exact .inr fun h => nomatch h
    | _ => exact fun ⟨_, _, _, h⟩ => nomatch h
  rw [build_cons]
  exact resume_compound hstep fun h => build_compound h ts

theorem names_of_parse {name : String} (h : Value.parse source = .ok (.string name)) :
    Names source.toList name := by
  intro rest hrest
  obtain ⟨hvalue, hstop⟩ := whole_ok_iff.mp h
  obtain ⟨start, stop, hread⟩ := eq_scalar_of_string hvalue
  rw [hread] at hstop
  rw [Outline.read] at hread
  cases hskip : skipBlank source.toList with
  | nil =>
    rw [Outline.read, tokens_nil hskip] at hvalue
    exact absurd hvalue (bad_finish _ _ _ _)
  | cons c tail =>
    have hlasts := lasts_token hrest c tail
    rw [tokens_cons hskip] at hread
    rw [tokens_cons (skipBlank_append_cons hskip rest)]
    generalize scanToken c tail = token at hread hlasts
    generalize scanToken c (tail ++ rest) = token' at hlasts ⊢
    obtain ⟨lexeme, after⟩ := token
    obtain ⟨lexeme', after'⟩ := token'
    rcases hlasts with hdead | ⟨hkept, rfl⟩
    · obtain ⟨o, ho, hbad⟩ := bad_step (t := ⟨lexeme, c :: tail, after⟩) hdead [] .value
      rw [build_cons, ho] at hread
      obtain rfl : o = .scalar (.string (.ok name)) start stop := hread
      exact absurd rfl (hbad 0 (.string name))
    · cases hkept with
      | mark m => exact absurd ⟨_, _, _, hread⟩ (build_mark_compound m _ _ _)
      | scalar h =>
        cases hread
        cases h with
        | string h =>
          exact ⟨_, _, _, h name rfl, congrArg _ (tokens_congr (skipBlank_append_nil hstop rest))⟩

end Screenwright.Proofs.Texts
