import Screenwright.Proofs.Texts

namespace Screenwright.Proofs.Containers
open Json Outline Decode Canonical Numerals Values Outlines Texts Outcomes

variable {α κ : Type} {R : Outline → α → Prop} {Q : Except Fault String → κ → Prop} {a : α}
  {v : Value} {text rest : List Char}

theorem tokens_mark {c : Char} {m : Mark} (hm : Mark.ofChar? c = some m)
    (hblank : isBlank c = false) (cs : List Char) :
    tokens (c :: cs) = ⟨.mark m, c :: cs, cs⟩ :: tokens cs := by
  have hskip : skipBlank (c :: cs) = c :: cs := List.dropWhile_cons_of_neg (by simp [hblank])
  have hscan : scanToken c cs = (.mark m, cs) := by rw [scanToken, hm]
  rw [tokens_cons hskip, hscan]

/-- An understanding of outlines that no outline of a broken text has. -/
def Unbroken (R : Outline → α → Prop) : Prop :=
  ∀ start strict loose a, ¬ R (.broken start strict loose) a

theorem unbroken_hasValue : Unbroken HasValue := fun _ _ _ _ ⟨_, h⟩ => nomatch h

/-- A text that stands for something does not begin with a closing bracket. -/
theorem opens_of_stands (hR : Unbroken R) (h : StandsFor R text a) (hrest : Clear rest) :
    ∃ t ts, tokens (text ++ rest) = t :: ts ∧ t.lexeme ≠ .mark .listClose := by
  obtain ⟨o, ho, _, hbuild⟩ := h rest hrest
  have hread : build [] .value (tokens (text ++ rest)) = o := hbuild []
  cases htokens : tokens (text ++ rest) with
  | nil =>
    rw [← hread, htokens] at ho
    exact absurd ho (hR _ _ _ _)
  | cons t ts =>
    refine ⟨t, ts, rfl, fun hclose => ?_⟩
    have hnone : build [] .value (t :: ts) = noValue t.start := by
      obtain ⟨lexeme, start, stop⟩ := t
      subst hclose
      rfl
    rw [← hread, htokens, hnone] at ho
    exact hR _ _ _ _ ho

/-- Where an item of a list is awaited, behind the items that are there. -/
inductive AwaitsItem (start : List Char) : List Outline → Await → Prop where
  | first : AwaitsItem start [] (.list start [])
  | further (items : List Outline) : AwaitsItem start items (.item start items)

theorem build_begins (hR : Unbroken R) (h : StandsFor R text a) (hrest : Clear rest)
    (outer : List Frame) {start : List Char} {items : List Outline} {await : Await}
    (hawait : AwaitsItem start items await) :
    build outer await (tokens (text ++ rest)) =
      build (.list start items :: outer) .value (tokens (text ++ rest)) := by
  obtain ⟨⟨lexeme, place, stop⟩, ts, htokens, hopen⟩ := opens_of_stands hR h hrest
  rw [htokens, build_cons, build_cons]
  cases lexeme with
  | mark m =>
    cases m with
    | listClose => exact absurd rfl hopen
    | _ => cases hawait <;> rfl
  | _ => cases hawait <;> rfl

def commas : List (List Char) → List Char
  | [] => []
  | text :: texts => ',' :: (text ++ commas texts)

/-- Texts with commas between them. -/
def joined : List (List Char) → List Char
  | [] => []
  | text :: texts => text ++ commas texts

theorem clear_commas (texts : List (List Char)) (hrest : Clear rest) :
    Clear (commas texts ++ rest) := by
  cases texts with
  | nil => exact hrest
  | cons text texts => exact clear_cons (by decide) _

theorem clear_closing {c : Char} {blanks : List Char} (hc : isNumberChar c = false)
    (hblanks : skipBlank blanks = []) (rest : List Char) : Clear (blanks ++ c :: rest) :=
  clear_blanks hblanks (clear_cons hc rest)

theorem hasValue_list {os : List Outline} {vs : List Value} (h : List.Forall₂ HasValue os vs)
    (start stop : List Char) : HasValue (.list start os (.closed stop)) (.array vs) := by
  refine ⟨itemNesting vs + 2, value_list_iff.mpr ⟨by omega, rfl, vs, rfl, ?_⟩⟩
  refine forall₂_imp_mem h fun o v hv ho => ?_
  obtain ⟨depth, ho⟩ := ho
  have hle := itemNesting_le.mp (Nat.le_refl _) v hv
  exact value_of_nesting ho (by omega)

/-- Items are read one after the other, up to the closing bracket. -/
theorem build_items (hR : Unbroken R) {blanks : List Char} (hblanks : skipBlank blanks = [])
    {texts : List (List Char)} {as : List α} (h : StandsFor R text a)
    (hs : List.Forall₂ (StandsFor R) texts as) (rest : List Char) :
    ∃ os, List.Forall₂ R os (a :: as) ∧ ∀ outer start done await,
      AwaitsItem start done await →
        build outer await (tokens (text ++ (commas texts ++ (blanks ++ ']' :: rest)))) =
          resume (complete (.list start (done.reverse ++ os) (.closed rest)) outer)
            (tokens rest) := by
  have hclear (texts : List (List Char)) : Clear (commas texts ++ (blanks ++ ']' :: rest)) :=
    clear_commas texts (clear_closing (by decide) hblanks rest)
  have hclosing := tokens_congr (skipBlank_append_nil hblanks (']' :: rest))
  induction hs generalizing text a with
  | nil =>
    obtain ⟨o, ho, _, hbuild⟩ := h (commas [] ++ (blanks ++ ']' :: rest)) (hclear [])
    refine ⟨[o], .cons ho .nil, fun outer start done await hawait => ?_⟩
    rw [build_begins hR h (hclear []) outer hawait, hbuild]
    -- `complete` has put the item into its list, which only awaits its bracket now.
    change build outer (.list start (o :: done)) (tokens (blanks ++ ']' :: rest)) = _
    rw [hclosing, tokens_mark rfl rfl, build_cons, ← List.reverse_cons]
    rfl
  | @cons next b texts as hnext hs ih =>
    obtain ⟨o, ho, _, hbuild⟩ := h (commas (next :: texts) ++ (blanks ++ ']' :: rest)) (hclear _)
    obtain ⟨os, hos, hrest⟩ := ih hnext
    refine ⟨o :: os, .cons ho hos, fun outer start done await hawait => ?_⟩
    rw [build_begins hR h (hclear _) outer hawait, hbuild, commas, List.cons_append,
      List.append_assoc]
    change build outer (.list start (o :: done)) (tokens _) = _
    rw [tokens_mark rfl rfl, build_cons]
    change build outer (.item start (o :: done)) (tokens _) = _
    rw [hrest _ _ _ _ (.further _), List.reverse_cons, List.append_assoc]
    rfl

/-- The text of a list, with blanks in front of the closing bracket. -/
theorem standsFor_list (hR : Unbroken R) {blanks : List Char} (hblanks : skipBlank blanks = [])
    {texts : List (List Char)} {as : List α} (h : List.Forall₂ (StandsFor R) texts as)
    (hlist : ∀ os start stop, List.Forall₂ R os as → R (.list start os (.closed stop)) a) :
    StandsFor R ('[' :: (joined texts ++ (blanks ++ [']']))) a := by
  intro rest hrest
  have hopen (outer : List Frame) : build outer .value
      (tokens ('[' :: (joined texts ++ (blanks ++ [']'])) ++ rest)) =
        build outer (.list ('[' :: (joined texts ++ (blanks ++ ']' :: rest))) [])
          (tokens (joined texts ++ (blanks ++ ']' :: rest))) := by
    rw [List.cons_append, List.append_assoc, List.append_assoc, List.singleton_append,
      tokens_mark rfl rfl, build_cons]
    rfl
  simp only [hopen]
  generalize '[' :: (joined texts ++ (blanks ++ ']' :: rest)) = start
  cases h with
  | nil =>
    refine ⟨_, hlist [] start rest .nil, rfl, fun outer => ?_⟩
    rw [joined, List.nil_append, tokens_congr (skipBlank_append_nil hblanks _), tokens_mark rfl rfl,
      build_cons]
    rfl
  | cons h hs =>
    obtain ⟨os, hos, hbuild⟩ := build_items hR hblanks h hs rest
    refine ⟨_, hlist os start rest hos, rfl, fun outer => ?_⟩
    rw [joined, List.append_assoc, hbuild _ _ _ _ .first]
    rfl

theorem stands_list_blanks {texts : List (List Char)} {vs : List Value} {after : List Char}
    (h : List.Forall₂ Stands texts vs) (hafter : skipBlank after = []) :
    Stands ('[' :: (joined texts ++ (after ++ [']']))) (.array vs) :=
  standsFor_list unbroken_hasValue hafter h fun _ start stop hos => hasValue_list hos start stop

theorem stands_list {texts : List (List Char)} {vs : List Value}
    (h : List.Forall₂ Stands texts vs) : Stands ('[' :: (joined texts ++ [']'])) (.array vs) :=
  @stands_list_blanks texts vs [] h rfl

def memberText (m : List Char × List Char) : List Char := m.1 ++ ':' :: m.2

/-- The texts of a member's key and of what it holds. -/
def SpellsFor (Q : Except Fault String → κ → Prop) (R : Outline → α → Prop)
    (m : List Char × List Char) (e : κ × α) : Prop :=
  NamesFor Q m.1 e.1 ∧ StandsFor R m.2 e.2

/-- Texts that are read as a member's name and its value. -/
abbrev Spells : List Char × List Char → String × Value → Prop := SpellsFor HasName HasValue

def EntryFor (Q : Except Fault String → κ → Prop) (R : Outline → α → Prop) (m : Key × Outline)
    (e : κ × α) : Prop :=
  Q m.1.name e.1 ∧ R m.2 e.2

abbrev HasEntry : Key × Outline → String × Value → Prop := EntryFor HasName HasValue

theorem hasValue_object {ms : List (Key × Outline)} {es : Members}
    (h : List.Forall₂ HasEntry ms es) (start stop : List Char) :
    HasValue (.object start ms (.closed stop)) (.object es) := by
  refine ⟨memberNesting es + 2, value_object_iff.mpr ⟨by omega, rfl, es, rfl, ?_⟩⟩
  refine forall₂_imp_mem h fun m e he hm => ?_
  obtain ⟨hname, depth, hm⟩ := hm
  have hle := memberNesting_le.mp (Nat.le_refl _) e he
  exact ⟨hname, value_of_nesting hm (by omega)⟩

/-- Where a key is awaited, behind the members that are there. -/
inductive AwaitsKey (start : List Char) : List (Key × Outline) → Await → Prop where
  | first : AwaitsKey start [] (.object start [])
  | further (members : List (Key × Outline)) : AwaitsKey start members (.key start members)

theorem build_member {m : List Char × List Char} {e : κ × α} (h : SpellsFor Q R m e)
    (hrest : Clear rest) :
    ∃ o, EntryFor Q R o e ∧ ∀ outer start done await, AwaitsKey start done await →
      build outer await (tokens (memberText m ++ rest)) =
        build outer (.object start (o :: done)) (tokens rest) := by
  obtain ⟨hkey, hvalue⟩ := h
  obtain ⟨read, place, stop, hread, htokens⟩ :=
    hkey (':' :: (m.2 ++ rest)) (clear_cons (by decide) _)
  obtain ⟨o, ho, _, hbuild⟩ := hvalue rest hrest
  refine ⟨(⟨read, stop⟩, o), ⟨hread, ho⟩, fun outer start done await hawait => ?_⟩
  have hcolon : build outer await (tokens (memberText m ++ rest)) =
      build outer (.colon start done ⟨read, stop⟩) (tokens (':' :: (m.2 ++ rest))) := by
    rw [memberText, List.append_assoc, List.cons_append, htokens, build_cons]
    cases hawait <;> rfl
  rw [hcolon, tokens_mark rfl rfl, build_cons]
  exact hbuild (.member start done ⟨read, stop⟩ :: outer)

/-- Members are read one after the other, up to the closing bracket. -/
theorem build_members {blanks : List Char} (hblanks : skipBlank blanks = [])
    {m : List Char × List Char} {ms : List (List Char × List Char)} {e : κ × α}
    {es : List (κ × α)} (h : SpellsFor Q R m e) (hs : List.Forall₂ (SpellsFor Q R) ms es)
    (rest : List Char) :
    ∃ os, List.Forall₂ (EntryFor Q R) os (e :: es) ∧ ∀ outer start done await,
      AwaitsKey start done await →
        build outer await
          (tokens (memberText m ++ (commas (ms.map memberText) ++ (blanks ++ '\x7d' :: rest)))) =
          resume (complete (.object start (done.reverse ++ os) (.closed rest)) outer)
            (tokens rest) := by
  have hclosing := @clear_closing '\x7d' _ (by decide) hblanks rest
  induction hs generalizing m e with
  | nil =>
    obtain ⟨o, ho, hbuild⟩ := build_member h hclosing
    refine ⟨[o], .cons ho .nil, fun outer start done await hawait => ?_⟩
    rw [List.map_nil, commas, List.nil_append, hbuild _ _ _ _ hawait,
      tokens_congr (skipBlank_append_nil hblanks _), tokens_mark rfl rfl, build_cons,
      ← List.reverse_cons]
    rfl
  | @cons next f ms es hnext hs ih =>
    obtain ⟨o, ho, hbuild⟩ := build_member h
      (clear_commas ((next :: ms).map memberText) hclosing)
    obtain ⟨os, hos, hrest⟩ := ih hnext
    refine ⟨o :: os, .cons ho hos, fun outer start done await hawait => ?_⟩
    rw [hbuild _ _ _ _ hawait, List.map_cons, commas, List.cons_append, List.append_assoc,
      tokens_mark rfl rfl, build_cons]
    change build outer (.key start (o :: done)) (tokens _) = _
    rw [hrest _ _ _ _ (.further _), List.reverse_cons, List.append_assoc]
    rfl

/-- The text of an object, with blanks in front of the closing bracket. -/
theorem standsFor_object {blanks : List Char} (hblanks : skipBlank blanks = [])
    {ms : List (List Char × List Char)} {es : List (κ × α)}
    (h : List.Forall₂ (SpellsFor Q R) ms es)
    (hobject : ∀ os start stop, List.Forall₂ (EntryFor Q R) os es →
      R (.object start os (.closed stop)) a) :
    StandsFor R ('\x7b' :: (joined (ms.map memberText) ++ (blanks ++ ['\x7d']))) a := by
  intro rest hrest
  have hopen (outer : List Frame) : build outer .value
      (tokens ('\x7b' :: (joined (ms.map memberText) ++ (blanks ++ ['\x7d'])) ++ rest)) =
        build outer
          (.object ('\x7b' :: (joined (ms.map memberText) ++ (blanks ++ '\x7d' :: rest))) [])
          (tokens (joined (ms.map memberText) ++ (blanks ++ '\x7d' :: rest))) := by
    rw [List.cons_append, List.append_assoc, List.append_assoc, List.singleton_append,
      tokens_mark rfl rfl, build_cons]
    rfl
  simp only [hopen]
  generalize '\x7b' :: (joined (ms.map memberText) ++ (blanks ++ '\x7d' :: rest)) = start
  cases h with
  | nil =>
    refine ⟨_, hobject [] start rest .nil, rfl, fun outer => ?_⟩
    rw [List.map_nil, joined, List.nil_append, tokens_congr (skipBlank_append_nil hblanks _),
      tokens_mark rfl rfl, build_cons]
    rfl
  | cons h hs =>
    obtain ⟨os, hos, hbuild⟩ := build_members hblanks h hs rest
    refine ⟨_, hobject os start rest hos, rfl, fun outer => ?_⟩
    rw [List.map_cons, joined, List.append_assoc, hbuild _ _ _ _ .first]
    rfl

theorem stands_object_blanks {ms : List (List Char × List Char)} {es : Members}
    {after : List Char} (h : List.Forall₂ Spells ms es) (hafter : skipBlank after = []) :
    Stands ('\x7b' :: (joined (ms.map memberText) ++ (after ++ ['\x7d']))) (.object es) :=
  standsFor_object hafter h fun _ start stop hos => hasValue_object hos start stop

theorem stands_object {ms : List (List Char × List Char)} {es : Members}
    (h : List.Forall₂ Spells ms es) :
    Stands ('\x7b' :: (joined (ms.map memberText) ++ ['\x7d'])) (.object es) :=
  @stands_object_blanks ms es [] h rfl

end Screenwright.Proofs.Containers
