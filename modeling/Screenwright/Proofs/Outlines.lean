import Screenwright.Proofs.Scanning
import Screenwright.Proofs.Values

namespace Screenwright.Proofs.Outlines
open Json Outline Decode Canonical Numerals Scanning Values Outcomes

/-- An outline that no value can be read from. -/
def Bad (o : Outline) : Prop := ∀ depth v, value depth o ≠ .ok v

theorem bad_broken (start : List Char) (strict loose : Fault) : Bad (.broken start strict loose) :=
  fun _ _ h => nomatch h

theorem bad_list {start : List Char} {items : List Outline} {tail : ListTail}
    (h : listEnd tail ≠ .ok ()) : Bad (.list start items tail) := fun _ _ hv =>
  h (value_list_iff.mp hv).2.1

theorem bad_object {start : List Char} {members : List (Key × Outline)} {tail : ObjectTail}
    (h : objectEnd tail ≠ .ok ()) : Bad (.object start members tail) := fun _ _ hv =>
  h (value_object_iff.mp hv).2.1

theorem bad_item {start : List Char} {items : List Outline} {tail : ListTail} {o : Outline}
    (ho : o ∈ items) (h : Bad o) : Bad (.list start items tail) := fun _ _ hv => by
  obtain ⟨_, _, vs, _, hvs⟩ := value_list_iff.mp hv
  obtain ⟨v, _, hov⟩ := exists_of_forall₂ hvs.flip ho
  exact h _ v hov

theorem bad_member {start : List Char} {members : List (Key × Outline)} {tail : ObjectTail}
    {m : Key × Outline} (hm : m ∈ members) (h : Bad m.2) : Bad (.object start members tail) :=
  fun _ _ hv => by
  obtain ⟨_, _, es, _, hes⟩ := value_object_iff.mp hv
  obtain ⟨e, _, hme⟩ := exists_of_forall₂ hes.flip hm
  exact h _ e.2 hme.2

theorem bad_cutOff {o : Outline} (h : Bad o) (frames : List Frame) : Bad (cutOff o frames) := by
  induction frames generalizing o with
  | nil => exact h
  | cons frame frames ih =>
    cases frame with
    | list start items => exact ih (bad_item (by simp) h)
    | member start members key => exact ih (bad_member (m := (key, o)) (by simp) h)

theorem bad_noValue (start : List Char) : Bad (noValue start) := bad_broken _ _ _

theorem bad_finish (frames : List Frame) (await : Await) : Bad (finish frames await) := by
  have hcolon (key : Key) : objectEnd (.endAfterKey key) ≠ .ok () := by
    intro h
    obtain ⟨_, _, h⟩ := bind_ok_iff.mp h
    cases h
  cases await <;> refine bad_cutOff ?_ _
  case value => exact bad_broken _ _ _
  case list | item => exact bad_list fun h => nomatch h
  case object | key => exact bad_object fun h => nomatch h
  case colon => exact bad_object (hcolon _)

/-- An outline has the value of another one, if that has one; its numbers fit. -/
def Keeps (o o' : Outline) : Prop :=
  ∀ depth v, value depth o = .ok v → (∀ n ∈ numbers v, Fits n) ∧ value depth o' = .ok v

def KeepsKey (k k' : Key) : Prop := ∀ s, k.name = .ok s → k'.name = .ok s

def KeepsMember (m m' : Key × Outline) : Prop := KeepsKey m.1 m'.1 ∧ Keeps m.2 m'.2

theorem keeps_scalar {s s' : Scalar} (h : Kept s s') (start stop start' stop' : List Char) :
    Keeps (.scalar s start stop) (.scalar s' start' stop') := by
  intro depth v hv
  change Decode.scalar s = .ok v at hv
  change _ ∧ Decode.scalar s' = .ok v
  cases h with
  | null =>
    cases hv
    exact ⟨fun _ h => (nomatch h), rfl⟩
  | bool b =>
    cases hv
    exact ⟨fun _ h => (nomatch h), rfl⟩
  | number h =>
    obtain ⟨n, hn, rfl⟩ := map_ok_iff.mp hv
    obtain ⟨hfits, hn'⟩ := h n hn
    exact ⟨fun m hm => List.mem_singleton.mp hm ▸ hfits, map_ok_iff.mpr ⟨n, hn', rfl⟩⟩
  | string h =>
    obtain ⟨s, hs, rfl⟩ := map_ok_iff.mp hv
    exact ⟨fun _ h => (nomatch h), map_ok_iff.mpr ⟨s, h s hs, rfl⟩⟩

theorem keeps_list {items items' : List Outline} {tail' : ListTail}
    (h : List.Forall₂ Keeps items items') (htail' : listEnd tail' = .ok ())
    (start start' : List Char) (tail : ListTail) :
    Keeps (.list start items tail) (.list start' items' tail') := by
  intro depth v hv
  obtain ⟨hd, _, vs, rfl, hvs⟩ := value_list_iff.mp hv
  have hboth := forall₂_comp h hvs fun o o' v hkeeps hv => hkeeps _ v hv
  refine ⟨fun n hn => ?_, value_list_iff.mpr ⟨hd, htail', vs, rfl, hboth.imp fun _ _ h => h.2⟩⟩
  obtain ⟨v, hv, hn⟩ := mem_itemNumbers.mp hn
  obtain ⟨o', _, ho'⟩ := exists_of_forall₂ hboth hv
  exact ho'.1 n hn

theorem keeps_object {members members' : List (Key × Outline)} {tail' : ObjectTail}
    (h : List.Forall₂ KeepsMember members members') (htail' : objectEnd tail' = .ok ())
    (start start' : List Char) (tail : ObjectTail) :
    Keeps (.object start members tail) (.object start' members' tail') := by
  intro depth v hv
  obtain ⟨hd, _, es, rfl, hes⟩ := value_object_iff.mp hv
  have hboth := forall₂_comp h hes fun m m' e hkeeps he =>
    And.intro (hkeeps.2 _ e.2 he.2).1 (And.intro (hkeeps.1 _ he.1) (hkeeps.2 _ e.2 he.2).2)
  refine ⟨fun n hn => ?_,
    value_object_iff.mpr ⟨hd, htail', es, rfl, hboth.imp fun _ _ h => h.2⟩⟩
  obtain ⟨e, he, hn⟩ := mem_memberNumbers.mp hn
  obtain ⟨m', _, hm'⟩ := exists_of_forall₂ hboth he
  exact hm'.1 n hn

inductive KeepsFrame : Frame → Frame → Prop where
  | list (start start' : List Char) {items items' : List Outline}
      (h : List.Forall₂ Keeps items items') : KeepsFrame (.list start items) (.list start' items')
  | member (start start' : List Char) {members members' : List (Key × Outline)} {key key' : Key}
      (h : List.Forall₂ KeepsMember members members') (hkey : KeepsKey key key') :
      KeepsFrame (.member start members key) (.member start' members' key')

inductive KeepsAwait : Await → Await → Prop where
  | value : KeepsAwait .value .value
  | list (start start' : List Char) {items items' : List Outline}
      (h : List.Forall₂ Keeps items items') : KeepsAwait (.list start items) (.list start' items')
  | item (start start' : List Char) {items items' : List Outline}
      (h : List.Forall₂ Keeps items items') : KeepsAwait (.item start items) (.item start' items')
  | object (start start' : List Char) {members members' : List (Key × Outline)}
      (h : List.Forall₂ KeepsMember members members') :
      KeepsAwait (.object start members) (.object start' members')
  | key (start start' : List Char) {members members' : List (Key × Outline)}
      (h : List.Forall₂ KeepsMember members members') :
      KeepsAwait (.key start members) (.key start' members')
  | colon (start start' : List Char) {members members' : List (Key × Outline)} {key key' : Key}
      (h : List.Forall₂ KeepsMember members members') (hkey : KeepsKey key key') :
      KeepsAwait (.colon start members key) (.colon start' members' key')

/-- A step on its own, and the same step inside more frames: both go on alike, or both complete like
outlines. Of an outline that has no value, nothing is said. -/
inductive Mirrors (stop stop' : List Char) : Step → (List Frame → Step) → Prop where
  | next {frames frames' : List Frame} {await await' : Await}
      (hframes : List.Forall₂ KeepsFrame frames frames') (hawait : KeepsAwait await await') :
      Mirrors stop stop' (.next frames await) fun outer => .next (frames' ++ outer) await'
  | done {o o' : Outline} (h : Keeps o o') (hstop : o.stop = stop) (hstop' : o'.stop = stop') :
      Mirrors stop stop' (.done o) (complete o')
  | bad {o : Outline} (h : Bad o) (step : List Frame → Step) : Mirrors stop stop' (.done o) step

variable {frames frames' : List Frame} {t t' : Token}

theorem mirrors_complete {o o' : Outline} (h : Keeps o o')
    (hframes : List.Forall₂ KeepsFrame frames frames') :
    Mirrors o.stop o'.stop (complete o frames) fun outer => complete o' (frames' ++ outer) := by
  cases hframes with
  | nil => exact .done h rfl rfl
  | cons hframe hframes =>
    cases hframe with
    | list _ _ hitems => exact .next hframes (.list _ _ (.cons h hitems))
    | member _ _ hmembers hkey => exact .next hframes (.object _ _ (.cons ⟨hkey, h⟩ hmembers))

theorem mirrors_beginValue (hframes : List.Forall₂ KeepsFrame frames frames')
    (ht : KeptLexeme t.lexeme t'.lexeme) :
    Mirrors t.stop t'.stop (beginValue frames t) fun outer => beginValue (frames' ++ outer) t' := by
  obtain ⟨lexeme, start, stop⟩ := t
  obtain ⟨lexeme', start', stop'⟩ := t'
  cases ht with
  | scalar h => exact mirrors_complete (keeps_scalar h start stop start' stop') hframes
  | mark m =>
    cases m with
    | listOpen => exact .next hframes (.list _ _ .nil)
    | objectOpen => exact .next hframes (.object _ _ .nil)
    | _ => exact .bad (bad_cutOff (bad_noValue _) _) _

theorem mirrors_beginMember {members members' : List (Key × Outline)} (start start' : List Char)
    (hframes : List.Forall₂ KeepsFrame frames frames') (ht : KeptLexeme t.lexeme t'.lexeme)
    (hmembers : List.Forall₂ KeepsMember members members') :
    Mirrors t.stop t'.stop (beginMember frames start members t)
      fun outer => beginMember (frames' ++ outer) start' members' t' := by
  obtain ⟨lexeme, first, stop⟩ := t
  obtain ⟨lexeme', first', stop'⟩ := t'
  have hbad (rest : List Char) : Bad (.object start members.reverse (.badKey rest)) :=
    bad_object fun h => nomatch h
  cases ht with
  | mark m => exact .bad (bad_cutOff (hbad _) _) _
  | scalar h =>
    cases h with
    | string h => exact .next hframes (.colon _ _ hmembers h)
    | _ => exact .bad (bad_cutOff (hbad _) _) _

theorem mirrors_list (start start' : List Char) {items items' : List Outline}
    (hframes : List.Forall₂ KeepsFrame frames frames') (ht : KeptLexeme t.lexeme t'.lexeme)
    (h : List.Forall₂ Keeps items items') :
    Mirrors t.stop t'.stop (step frames (.list start items) t)
      fun outer => step (frames' ++ outer) (.list start' items') t' := by
  obtain ⟨lexeme, first, stop⟩ := t
  obtain ⟨lexeme', first', stop'⟩ := t'
  have hclosed : Keeps (.list start items.reverse (.closed stop))
      (.list start' items'.reverse (.closed stop')) :=
    keeps_list (List.rel_reverse h) rfl _ _ _
  have hbad (rest : List Char) : Bad (.list start items.reverse (.noSeparator rest)) :=
    bad_list fun h => nomatch h
  have hfirst (hnil : List.Forall₂ Keeps [] []) := mirrors_beginValue
    (.cons (.list start start' hnil) hframes) ht
  cases h with
  | nil =>
    cases ht with
    | scalar h => exact hfirst .nil
    | mark m =>
      cases m with
      | listClose => exact mirrors_complete hclosed hframes
      | _ => exact hfirst .nil
  | cons ho h =>
    cases ht with
    | scalar h => exact .bad (bad_cutOff (hbad _) _) _
    | mark m =>
      cases m with
      | listClose => exact mirrors_complete hclosed hframes
      | comma => exact .next hframes (.item _ _ (.cons ho h))
      | _ => exact .bad (bad_cutOff (hbad _) _) _

theorem mirrors_object (start start' : List Char) {members members' : List (Key × Outline)}
    (hframes : List.Forall₂ KeepsFrame frames frames') (ht : KeptLexeme t.lexeme t'.lexeme)
    (h : List.Forall₂ KeepsMember members members') :
    Mirrors t.stop t'.stop (step frames (.object start members) t)
      fun outer => step (frames' ++ outer) (.object start' members') t' := by
  have hfirst (hnil : List.Forall₂ KeepsMember [] []) :=
    mirrors_beginMember start start' hframes ht hnil
  obtain ⟨lexeme, first, stop⟩ := t
  obtain ⟨lexeme', first', stop'⟩ := t'
  have hclosed : Keeps (.object start members.reverse (.closed stop))
      (.object start' members'.reverse (.closed stop')) :=
    keeps_object (List.rel_reverse h) rfl _ _ _
  have hbad (rest : List Char) : Bad (.object start members.reverse (.noSeparator rest)) :=
    bad_object fun h => nomatch h
  cases h with
  | nil =>
    cases ht with
    | scalar h => exact hfirst .nil
    | mark m =>
      cases m with
      | objectClose => exact mirrors_complete hclosed hframes
      | _ => exact hfirst .nil
  | cons hm h =>
    cases ht with
    | scalar h => exact .bad (bad_cutOff (hbad _) _) _
    | mark m =>
      cases m with
      | objectClose => exact mirrors_complete hclosed hframes
      | comma => exact .next hframes (.key _ _ (.cons hm h))
      | _ => exact .bad (bad_cutOff (hbad _) _) _

theorem mirrors_step (t t' : Token) {await await' : Await}
    (hframes : List.Forall₂ KeepsFrame frames frames')
    (hawait : KeepsAwait await await') (ht : KeptLexeme t.lexeme t'.lexeme) :
    Mirrors t.stop t'.stop (step frames await t)
      fun outer => step (frames' ++ outer) await' t' := by
  have hvalue {frames frames' : List Frame} (hframes : List.Forall₂ KeepsFrame frames frames') :=
    mirrors_beginValue hframes ht
  have hmember := fun start start' {ms ms'} (h : List.Forall₂ KeepsMember ms ms') =>
    mirrors_beginMember start start' hframes ht h
  obtain ⟨lexeme, first, stop⟩ := t
  obtain ⟨lexeme', first', stop'⟩ := t'
  cases hawait with
  | value => exact hvalue hframes
  | list start start' h => exact mirrors_list start start' hframes ht h
  | object start start' h => exact mirrors_object start start' hframes ht h
  | @item start start' items _ h =>
    have hnext := hvalue (.cons (.list start start' h) hframes)
    have hbad (rest : List Char) : Bad (.list start items.reverse (.danglingComma rest)) :=
      bad_list fun h => nomatch h
    cases ht with
    | scalar => exact hnext
    | mark m =>
      cases m with
      | listClose => exact .bad (bad_cutOff (hbad _) _) _
      | _ => exact hnext
  | @key start start' members _ h =>
    have hnext := hmember start start' h
    have hbad (rest : List Char) : Bad (.object start members.reverse (.danglingComma rest)) :=
      bad_object fun h => nomatch h
    cases ht with
    | scalar => exact hnext
    | mark m =>
      cases m with
      | objectClose => exact .bad (bad_cutOff (hbad _) _) _
      | _ => exact hnext
  | colon start start' h hkey =>
    have hbad (key : Key) (rest : List Char) : objectEnd (.noColon key rest) ≠ .ok () := by
      intro h
      obtain ⟨_, _, h⟩ := bind_ok_iff.mp h
      cases h
    cases ht with
    | scalar => exact .bad (bad_cutOff (bad_object (hbad _ _)) _) _
    | mark m =>
      cases m with
      | colon => exact .next (.cons (.member start start' h hkey) hframes) .value
      | _ => exact .bad (bad_cutOff (bad_object (hbad _ _)) _) _

theorem bad_beginValue (h : Dead t.lexeme) (frames : List Frame) :
    ∃ o, beginValue frames t = .done o ∧ Bad o := by
  obtain ⟨lexeme, first, stop⟩ := t
  cases h with
  | stray => exact ⟨_, rfl, bad_cutOff (bad_noValue _) _⟩
  | broken strict loose => exact ⟨_, rfl, bad_cutOff (bad_broken _ _ _) _⟩

theorem bad_beginMember (h : Dead t.lexeme) (frames : List Frame) (start : List Char)
    (members : List (Key × Outline)) :
    ∃ o, beginMember frames start members t = .done o ∧ Bad o := by
  obtain ⟨lexeme, first, stop⟩ := t
  cases h with
  | stray =>
    refine ⟨_, rfl, bad_cutOff (bad_object ?_) _⟩
    exact fun h => nomatch h
  | broken strict loose =>
    refine ⟨_, rfl, bad_cutOff (bad_object ?_) _⟩
    split <;> exact fun h => nomatch h

/-- A token that no value goes on with ends everything. -/
theorem bad_step (h : Dead t.lexeme) (frames : List Frame) (await : Await) :
    ∃ o, step frames await t = .done o ∧ Bad o := by
  have hvalue := bad_beginValue h
  have hmember := bad_beginMember h frames
  obtain ⟨lexeme, first, stop⟩ := t
  cases await with
  | value => exact hvalue frames
  | list start items =>
    have hbad : Bad (.list start items.reverse (.noSeparator first)) := bad_list fun h => nomatch h
    cases items with
    | nil => cases h <;> exact hvalue _
    | cons => cases h <;> exact ⟨_, rfl, bad_cutOff hbad _⟩
  | item start items => cases h <;> exact hvalue _
  | object start members =>
    have hbad : Bad (.object start members.reverse (.noSeparator first)) :=
      bad_object fun h => nomatch h
    cases members with
    | nil => cases h <;> exact hmember _ _
    | cons => cases h <;> exact ⟨_, rfl, bad_cutOff hbad _⟩
  | key start members => cases h <;> exact hmember _ _
  | colon start members key =>
    have hbad : Bad (.object start members.reverse (.noColon key first)) := bad_object fun h => by
      obtain ⟨_, _, h⟩ := bind_ok_iff.mp h
      cases h
    cases h <;> exact ⟨_, rfl, bad_cutOff hbad _⟩

/-- Goes on with more tokens, unless all is done. -/
def resume : Step → List Token → Outline
  | .next frames await, ts => build frames await ts
  | .done o, _ => o

theorem build_cons (frames : List Frame) (await : Await) (t : Token) (ts : List Token) :
    build frames await (t :: ts) = resume (step frames await t) ts := by
  rw [build]
  cases step frames await t <;> rfl

variable {cs rest : List Char}

theorem tokens_nil (h : skipBlank cs = []) : tokens cs = [] := by
  rw [tokens, h]

theorem tokens_cons {c : Char} {tail : List Char} (h : skipBlank cs = c :: tail) :
    tokens cs = ⟨(scanToken c tail).1, c :: tail, (scanToken c tail).2⟩ ::
      tokens (scanToken c tail).2 := by
  rw [tokens]
  split
  · next hnil => cases h.symm.trans hnil
  · next hcons =>
    cases h.symm.trans hcons
    rfl

theorem tokens_congr {ds : List Char} (h : skipBlank cs = skipBlank ds) :
    tokens cs = tokens ds := by
  cases hds : skipBlank ds with
  | nil => rw [tokens_nil hds, tokens_nil (h.trans hds)]
  | cons d tail => rw [tokens_cons hds, tokens_cons (h.trans hds)]

theorem skipBlank_append_nil (h : skipBlank cs = []) (rest : List Char) :
    skipBlank (cs ++ rest) = skipBlank rest := by
  rw [skipBlank, List.dropWhile_append, ← skipBlank, h]
  rfl

theorem skipBlank_append_cons {c : Char} {tail : List Char} (h : skipBlank cs = c :: tail)
    (rest : List Char) : skipBlank (cs ++ rest) = c :: (tail ++ rest) := by
  rw [skipBlank, List.dropWhile_append, ← skipBlank, h]
  rfl

/-- What a text completes on its own, it completes in front of more text and inside a container. -/
theorem build_append {await await' : Await} {depth : Nat} {v : Value} (hrest : Clear rest)
    (hframes : List.Forall₂ KeepsFrame frames frames') (hawait : KeepsAwait await await')
    (h : value depth (build frames await (tokens cs)) = .ok v) :
    ∃ o', Keeps (build frames await (tokens cs)) o' ∧
      o'.stop = (build frames await (tokens cs)).stop ++ rest ∧
      ∀ outer, build (frames' ++ outer) await' (tokens (cs ++ rest)) =
        resume (complete o' outer) (tokens o'.stop) := by
  -- Along the tokens of the text on its own. Each of them is dead, which leaves no value, or is the
  -- same token in front of more text, and then both runs take the same step.
  induction cs using tokens.induct generalizing frames frames' await await' with
  | case1 cs hcs =>
    rw [tokens_nil hcs] at h
    exact absurd h (bad_finish _ _ _ _)
  | case2 cs c tail hcs ih =>
    have hlasts := lasts_token hrest c tail
    rw [tokens_cons hcs, build_cons] at h ⊢
    simp only [tokens_cons (skipBlank_append_cons hcs rest), build_cons]
    generalize scanToken c tail = token at h ih hlasts ⊢
    generalize scanToken c (tail ++ rest) = token' at hlasts ⊢
    obtain ⟨lexeme, stop⟩ := token
    obtain ⟨lexeme', stop'⟩ := token'
    rcases hlasts with hdead | ⟨hkept, rfl⟩
    · obtain ⟨o, ho, hbad⟩ := bad_step (t := ⟨lexeme, c :: tail, stop⟩) hdead frames await
      rw [ho] at h
      exact absurd h (hbad _ _)
    · have hstep := mirrors_step ⟨lexeme, c :: tail, stop⟩
        ⟨lexeme', c :: (tail ++ rest), stop ++ rest⟩ hframes hawait hkept
      generalize step frames await _ = here at hstep h ⊢
      generalize hthere : (fun outer => step (frames' ++ outer) await' _) = there at hstep
      simp only [congrFun hthere]
      cases hstep with
      | next hframes hawait => exact ih hframes hawait h
      | @done o o' hkeeps ho ho' =>
        refine ⟨o', hkeeps, ?_, fun outer => ?_⟩
        · rw [ho', show (resume (.done o) (tokens stop)).stop = stop from ho]
        · rw [ho']
      | bad hbad => exact absurd h (hbad _ _)

end Screenwright.Proofs.Outlines
