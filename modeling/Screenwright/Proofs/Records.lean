import Mathlib.Data.List.Pairwise
import Screenwright.Proofs.Values

namespace Screenwright.Proofs.Records
open Json Decode Canonical Values Outcomes

variable {β σ : Type}

/-- What the fields of a record make of what they hold: changes to the record, if they accept it. -/
abbrev Changes (β σ : Type) := List (String × (β → Option (σ → σ)))

/-- What a member does to a record; an unknown one does nothing. -/
def change (changes : Changes β σ) (s : σ) (e : String × β) : Option σ :=
  match changes.find? (·.1 = e.1) with
  | some c => (c.2 e.2).map fun f => f s
  | none => some s

def changeBy (s : σ) (e : (String × (β → Option (σ → σ))) × β) : Option σ :=
  (e.1.2 e.2).map fun f => f s

/-- The members of a record, which may be a list of its first fields. -/
def fieldsOf? (changes : Changes Value σ) : Value → Option Members
  | .object es => some es
  | .array vs =>
    if vs.length ≤ changes.length then some ((changes.map Prod.fst).zip vs) else none
  | _ => none

/-- What a value reads as, from a blank record on. -/
def recordOf? (changes : Changes Value σ) (blank : σ) (v : Value) : Option σ :=
  (fieldsOf? changes v).bind fun es => es.foldlM (change changes) blank

/-- Of what is read in some way, a field's decoder makes the change that it calls for. -/
def Makes (Reads : Nat → Outline → β → Prop)
    (field : String × (Nat → Outline → σ → Except Refusal σ))
    (c : String × (β → Option (σ → σ))) : Prop :=
  field.1 = c.1 ∧ ∀ {depth : Nat} {o : Outline} {b : β}, Reads depth o b →
    ∀ s, (field.2 depth o s).toOption = (c.2 b).map fun f => f s

/-- A member under its key. What is read there matters only if the key is known. -/
structure Holds (Reads : Nat → Outline → β → Prop) (changes : Changes β σ) (depth : Nat)
    (m : Key × Outline) (e : String × β) : Prop where
  key : m.1.name = .ok e.1
  skipped : skip m.2 = .ok ()
  reads : e.1 ∈ changes.map Prod.fst → Reads depth m.2 e.2

/-- Members among which no known key comes twice. -/
def Once (changes : Changes β σ) (es : List (String × β)) : Prop :=
  es.Pairwise fun e f => e.1 = f.1 → e.1 ∉ changes.map Prod.fst

variable {Reads : Nat → Outline → β → Prop} {r : Record σ} {changes : Changes β σ} {depth : Nat}
  {start : List Char} {o : Outline} {v : Value}

theorem once_of_nodup {es : List (String × β)} (h : (es.map Prod.fst).Nodup) : Once changes es :=
  (List.pairwise_map.mp h).imp fun hne heq => absurd heq hne

theorem Once.perm {es fs : List (String × β)} (h : Once changes es) (hp : es.Perm fs) :
    Once changes fs :=
  (hp.pairwise_iff fun hef heq => heq ▸ hef heq.symm).mp h

theorem toOption_place {α : Type} (rest : List Char) (x : Except Refusal α) :
    (place rest x).toOption = x.toOption := by
  rcases x with (fault | cause) | a <;> rfl

theorem names_makes {fields : List (String × (Nat → Outline → σ → Except Refusal σ))}
    (h : List.Forall₂ (Makes Reads) fields changes) :
    fields.map Prod.fst = changes.map Prod.fst := by
  induction h with
  | nil => rfl
  | cons hfield _ ih => rw [List.map_cons, List.map_cons, hfield.1, ih]

theorem find?_makes {fields : List (String × (Nat → Outline → σ → Except Refusal σ))}
    (h : List.Forall₂ (Makes Reads) fields changes) (name : String) :
    Option.Rel (Makes Reads) (fields.find? (·.1 = name)) (changes.find? (·.1 = name)) := by
  induction h with
  | nil => exact .none
  | @cons field c fields changes hfield _ ih =>
    by_cases hname : field.1 = name
    · have hname' : c.1 = name := hfield.1 ▸ hname
      rw [List.find?_cons_of_pos (by simpa using hname),
        List.find?_cons_of_pos (by simpa using hname')]
      exact .some hfield
    · have hname' : c.1 ≠ name := hfield.1 ▸ hname
      rw [List.find?_cons_of_neg (by simpa using hname),
        List.find?_cons_of_neg (by simpa using hname')]
      exact ih

/-- A field that is read and put into the record. -/
theorem makes_map {α : Type} {decode : Nat → Outline → Except Fault α} {read : β → Option α}
    (hread : ∀ depth o b, Reads depth o b → (decode depth o).toOption = read b) (name : String)
    (set : α → σ → σ) :
    Makes Reads (name, fun depth o s => do
        let a ← decode depth o
        return set a s)
      (name, fun b => (read b).map set) := by
  refine ⟨rfl, fun {depth o b} h s => ?_⟩
  change ((decode depth o).mapError Refusal.placed >>= fun a =>
    (.ok (set a s) : Except Refusal σ)).toOption = _
  rw [toOption_bind, toOption_mapError, hread _ _ _ h, Option.map_map, Option.map_eq_bind]
  rfl

/-- A known key must not have come before. -/
theorem toOption_checkNew (seen : List String) (key : Key) :
    (r.checkNew seen key).toOption = key.name.toOption.bind fun name =>
      if name ∈ seen ∧ name ∈ r.fields.map Prod.fst then none else some name := by
  rw [Record.checkNew]
  cases key.name with
  | error fault => rfl
  | ok name =>
    have hknown : r.fields.any (·.1 = name) = true ↔ name ∈ r.fields.map Prod.fst := by simp
    change (if name ∈ seen ∧ r.fields.any (·.1 = name) = true then _ else Except.ok name).toOption =
      if name ∈ seen ∧ name ∈ r.fields.map Prod.fst then none else some name
    by_cases hrepeated : name ∈ seen ∧ name ∈ r.fields.map Prod.fst
    · rw [if_pos (by rwa [hknown]), if_pos hrepeated]
      rfl
    · rw [if_neg (by rwa [hknown]), if_neg hrepeated]
      rfl

/-- Members are read one after the other, and none of them may be refused. -/
theorem toOption_members_cons (key : Key) (o : Outline) (ms : List (Key × Outline))
    (seen : List String) (s : σ) :
    (r.members depth seen s ((key, o) :: ms)).toOption =
      (r.checkNew seen key).toOption.bind fun name =>
        match r.fields.find? (·.1 = name) with
        | some field => (field.2 depth o s).toOption.bind fun s =>
            (r.members depth (name :: seen) s ms).toOption
        | none => (skip o).toOption.bind fun _ => (r.members depth seen s ms).toOption := by
  rw [Record.members, toOption_bind]
  refine congrArg _ (funext fun name => ?_)
  cases r.fields.find? (·.1 = name) with
  | none => exact toOption_bind _ _
  | some field =>
    dsimp only
    rw [toOption_bind, toOption_place]

theorem find?_known {name : String} {c : String × (β → Option (σ → σ))}
    (h : changes.find? (·.1 = name) = some c) : name ∈ changes.map Prod.fst := by
  have hname : c.1 = name := by simpa using List.find?_some h
  exact hname ▸ List.mem_map_of_mem (List.mem_of_find?_eq_some h)

theorem find?_unknown {name : String} (h : changes.find? (·.1 = name) = none) :
    name ∉ changes.map Prod.fst := by
  intro hmem
  obtain ⟨c, hc, hname⟩ := List.mem_map.mp hmem
  exact List.find?_eq_none.mp h c hc (decide_eq_true hname)

/-- A member makes its change, unless it repeats a known key. -/
theorem toOption_members_holds (h : List.Forall₂ (Makes Reads) r.fields changes)
    {m : Key × Outline} {e : String × β} (hm : Holds Reads changes depth m e)
    (ms : List (Key × Outline)) (seen : List String) (s : σ) :
    (r.members depth seen s (m :: ms)).toOption =
      if e.1 ∈ seen ∧ e.1 ∈ changes.map Prod.fst then none
      else (change changes s e).bind fun s =>
        (r.members depth (if e.1 ∈ changes.map Prod.fst then e.1 :: seen else seen) s
          ms).toOption := by
  obtain ⟨key, o⟩ := m
  rw [toOption_members_cons, toOption_checkNew, hm.key, names_makes h]
  change Option.bind (ite _ _ _) _ = _
  split
  · rfl
  · have hfind := find?_makes h e.1
    rw [change, Option.bind_some]
    cases hc : changes.find? (·.1 = e.1) with
    | none =>
      rw [hc] at hfind
      generalize r.fields.find? (·.1 = e.1) = field at hfind
      cases hfind
      dsimp only
      rw [hm.skipped, if_neg (find?_unknown hc)]
      rfl
    | some c =>
      rw [hc] at hfind
      generalize r.fields.find? (·.1 = e.1) = field at hfind
      cases hfind with | @some field _ hmakes =>
      have hknown := find?_known hc
      dsimp only
      rw [hmakes.2 (hm.reads hknown), if_pos hknown]

/-- No key of the members is known and has come before. -/
def Fresh (changes : Changes β σ) (seen : List String) (es : List (String × β)) : Prop :=
  ∀ e ∈ es, e.1 ∈ seen → e.1 ∉ changes.map Prod.fst

theorem fresh_cons {seen : List String} {e : String × β} {es : List (String × β)} :
    Once changes (e :: es) ∧ Fresh changes seen (e :: es) ↔
      ¬ (e.1 ∈ seen ∧ e.1 ∈ changes.map Prod.fst) ∧ Once changes es ∧
        Fresh changes (if e.1 ∈ changes.map Prod.fst then e.1 :: seen else seen) es := by
  rw [Once, List.pairwise_cons, Fresh, List.forall_mem_cons]
  by_cases hk : e.1 ∈ changes.map Prod.fst
  · rw [if_pos hk]
    constructor
    · rintro ⟨⟨hnot, honce⟩, hnew, hrest⟩
      refine ⟨fun h => hnew h.1 h.2, honce, fun f hf hmem => ?_⟩
      rcases List.mem_cons.mp hmem with heq | hmem
      · exact absurd hk (hnot f hf heq.symm)
      · exact hrest f hf hmem
    · rintro ⟨hnew, honce, hrest⟩
      refine ⟨⟨fun f hf heq => ?_, honce⟩, fun h hk => hnew ⟨h, hk⟩, fun f hf hmem =>
        hrest f hf (List.mem_cons_of_mem _ hmem)⟩
      exact heq ▸ hrest f hf (heq ▸ List.mem_cons_self)
  · rw [if_neg hk]
    exact ⟨fun ⟨⟨_, honce⟩, _, hrest⟩ => ⟨fun h => hk h.2, honce, hrest⟩,
      fun ⟨_, honce, hrest⟩ => ⟨⟨fun _ _ _ => hk, honce⟩, fun _ => hk, hrest⟩⟩

/-- Members are read one after the other, if they repeat no known key. -/
theorem toOption_members (h : List.Forall₂ (Makes Reads) r.fields changes) {seen : List String}
    {ms : List (Key × Outline)} {es : List (String × β)}
    (hms : List.Forall₂ (Holds Reads changes depth) ms es) (honce : Once changes es)
    (hfresh : Fresh changes seen es) (s : σ) :
    (r.members depth seen s ms).toOption.map Prod.snd = es.foldlM (change changes) s := by
  induction hms generalizing seen s with
  | nil => rfl
  | @cons m e ms es hm hms ih =>
    obtain ⟨hnew, honce', hfresh'⟩ := fresh_cons.mp ⟨honce, hfresh⟩
    rw [List.foldlM_cons, toOption_members_holds h hm, if_neg hnew, Option.map_bind]
    exact congrArg _ (funext fun s => ih honce' hfresh' s)

theorem toOption_members_repeated (h : List.Forall₂ (Makes Reads) r.fields changes)
    {seen : List String} {ms : List (Key × Outline)} {es : List (String × β)}
    (hms : List.Forall₂ (Holds Reads changes depth) ms es)
    (hrepeated : ¬ (Once changes es ∧ Fresh changes seen es)) (s : σ) :
    (r.members depth seen s ms).toOption = none := by
  induction hms generalizing seen s with
  | nil => exact absurd ⟨.nil, fun _ h => nomatch h⟩ hrepeated
  | @cons m e ms es hm hms ih =>
    rw [fresh_cons, not_and] at hrepeated
    rw [toOption_members_holds h hm]
    split
    · rfl
    · next hnew => simp only [ih (hrepeated hnew), Option.bind_fun_none]

theorem toOption_members_unreadable {ms : List (Key × Outline)}
    (hkey : ∃ m ∈ ms, m.1.name.toOption = none) (seen : List String) (s : σ) :
    (r.members depth seen s ms).toOption = none := by
  induction ms generalizing seen s with
  | nil => simp at hkey
  | cons m ms ih =>
    obtain ⟨key, o⟩ := m
    rw [toOption_members_cons, toOption_checkNew]
    rw [List.exists_mem_cons_iff] at hkey
    rcases hkey with hkey | hkey
    · rw [hkey]
      rfl
    · refine Option.bind_eq_none_iff.mpr fun name _ => ?_
      cases r.fields.find? (·.1 = name) with
      | none => simp only [ih hkey, Option.bind_fun_none]
      | some field => simp only [ih hkey, Option.bind_fun_none]

/-- Items are read as the fields in their order, as far as both go. -/
theorem toOption_items {fields : List (String × (Nat → Outline → σ → Except Refusal σ))}
    (h : List.Forall₂ (Makes Reads) fields changes) {os : List Outline} {bs : List β}
    (hos : List.Forall₂ (Reads depth) os bs) (s : σ) :
    (Record.items depth s fields os).toOption =
      ((changes.zip bs).foldlM changeBy s).map fun s =>
        (s, decide (changes.length ≤ bs.length), os.drop changes.length) := by
  induction h generalizing os bs s with
  | nil =>
    cases hos <;> simp [Record.items, Except.toOption]
  | @cons field c fields changes hfield _ ih =>
    cases hos with
    | nil => simp [Record.items, Except.toOption]
    | @cons o b os bs ho hos =>
      obtain ⟨name, field⟩ := field
      rw [Record.items, toOption_bind, toOption_place, hfield.2 ho, List.zip_cons_cons,
        List.foldlM_cons, changeBy]
      cases c.2 b with
      | none => rfl
      | some f =>
        simp only [Option.map_some, Option.bind_some, ih hos]
        simp

/-- Fields in order are members under the names of the fields. -/
theorem foldlM_zip (hnames : (changes.map Prod.fst).Nodup) {some : Changes β σ}
    (hsome : ∀ c ∈ some, c ∈ changes) (bs : List β) (s : σ) :
    (some.zip bs).foldlM changeBy s =
      ((some.map Prod.fst).zip bs).foldlM (change changes) s := by
  induction some generalizing bs s with
  | nil => rfl
  | cons c some ih =>
    obtain ⟨hc, hrest⟩ := List.forall_mem_cons.mp hsome
    cases bs with
    | nil => rfl
    | cons b bs =>
      have hfound : changes.find? (·.1 = c.1) = .some c := Keyed.find?_key hnames hc
      rw [List.zip_cons_cons, List.map_cons, List.zip_cons_cons, List.foldlM_cons,
        List.foldlM_cons, changeBy, change, hfound]
      dsimp only
      cases c.2 b with
      | none => rfl
      | some f => exact ih hrest bs (f s)

theorem decode_object {ms : List (Key × Outline)} {tail : ObjectTail}
    (hd : 1 < depth) (htail : objectEnd tail = .ok ()) :
    r.decode depth (.object start ms tail) =
      Prod.snd <$> r.members (depth - 1) [] r.blank ms := by
  have hclosed : r.decode depth (.object start ms tail) =
      (enter depth start >>= fun inner => r.members inner [] r.blank ms >>= fun read =>
        pure () >>= fun _ => objectEnd tail >>= fun _ => pure read.2) := by
    cases tail with
    | noColon key rest =>
      obtain ⟨_, _, h⟩ := bind_ok_iff.mp htail
      cases h
    | endAfterKey key =>
      obtain ⟨_, _, h⟩ := bind_ok_iff.mp htail
      cases h
    | _ => rfl
  rw [hclosed, enter_ok_iff.mpr ⟨hd, rfl⟩, htail, map_eq_pure_bind]
  rfl

theorem noMoreItems_iff {extra : List Outline} {tail : ListTail} (htail : listEnd tail = .ok ()) :
    (Record.noMoreItems extra tail).toOption = if extra = [] then some () else none := by
  cases extra with
  | cons o os => rfl
  | nil => cases tail with
    | closed stop => rfl
    | cut => rfl
    | _ => cases htail

theorem decode_list {os : List Outline} {tail : ListTail}
    (hd : 1 < depth) (htail : listEnd tail = .ok ()) :
    r.decode depth (.list start os tail) =
      (Record.items (depth - 1) r.blank r.fields os >>= fun read =>
        (if read.2.1 then Record.noMoreItems read.2.2 tail else .ok ()) >>= fun _ =>
          pure read.1) := by
  rw [Record.decode, enter_ok_iff.mpr ⟨hd, rfl⟩, htail]
  refine congrArg (Record.items (depth - 1) r.blank r.fields os >>= ·) ?_
  funext ⟨state, full, extra⟩
  cases full <;> rfl

theorem toOption_decode_object (h : List.Forall₂ (Makes Reads) r.fields changes)
    {ms : List (Key × Outline)} {tail : ObjectTail} {es : List (String × β)} (hd : 1 < depth)
    (htail : objectEnd tail = .ok ()) (hms : List.Forall₂ (Holds Reads changes (depth - 1)) ms es)
    (honce : Once changes es) :
    (r.decode depth (.object start ms tail)).toOption = es.foldlM (change changes) r.blank := by
  rw [decode_object hd htail, toOption_map,
    toOption_members h hms honce fun _ _ hmem => absurd hmem List.not_mem_nil]

theorem toOption_decode_list (h : List.Forall₂ (Makes Reads) r.fields changes)
    (hnames : (changes.map Prod.fst).Nodup) {os : List Outline} {tail : ListTail} {bs : List β}
    (hd : 1 < depth) (htail : listEnd tail = .ok ())
    (hos : List.Forall₂ (Reads (depth - 1)) os bs) :
    (r.decode depth (.list start os tail)).toOption =
      if bs.length ≤ changes.length then
        ((changes.map Prod.fst).zip bs).foldlM (change changes) r.blank
      else none := by
  have hleft : os.drop changes.length = [] ↔ bs.length ≤ changes.length := by
    rw [List.drop_eq_nil_iff, hos.length_eq]
  have hend (s : σ) : (((if decide (changes.length ≤ bs.length) then
      Record.noMoreItems (os.drop changes.length) tail else .ok ()) >>= fun _ =>
        pure s : Except Fault σ)).toOption =
      if bs.length ≤ changes.length then some s else none := by
    rw [toOption_bind, apply_ite Except.toOption, noMoreItems_iff htail]
    simp only [hleft]
    by_cases hle : bs.length ≤ changes.length
    · simp [hle, Except.toOption, pure, Except.pure]
    · simp [hle, Nat.le_of_lt (Nat.lt_of_not_le hle)]
  rw [decode_list hd htail, toOption_bind, toOption_items h hos, Option.bind_map]
  simp only [Function.comp_def, hend]
  split
  · rw [← foldlM_zip hnames (fun _ hc => hc), Option.bind_fun_some]
  · simp

/-- A whole value, in which no key comes twice. -/
def HasDistinct (depth : Nat) (o : Outline) (v : Value) : Prop :=
  value depth o = .ok v ∧ Distinct v

/-- What can be read of an outline as a value, if anything. -/
def HasReading (depth : Nat) (o : Outline) (b : Option Value) : Prop :=
  (value depth o).toOption = b

/-- What a field makes of something that may not have a value; then it does not accept it. -/
def lift (c : String × (Value → Option (σ → σ))) : String × (Option Value → Option (σ → σ)) :=
  (c.1, fun b => b.bind c.2)

theorem makes_exact {α : Type} {decode : Nat → Outline → Except Fault α} {read : Value → Option α}
    (hread : Exact decode read) (name : String) (set : α → σ → σ) :
    Makes HasReading (name, fun depth o s => do
        let a ← decode depth o
        return set a s)
      (lift (name, fun v => (read v).map set)) := by
  have hmap : ∀ depth o b, HasReading depth o b → (decode depth o).toOption = b.bind read :=
    fun depth o _ h => h ▸ hread depth o
  refine ⟨rfl, fun {depth o b} h s => ?_⟩
  rw [(makes_map hmap name set).2 h s]
  cases b <;> rfl

theorem Makes.of_lift {field : String × (Nat → Outline → σ → Except Refusal σ)}
    {c : String × (Value → Option (σ → σ))} (h : Makes HasReading field (lift c)) :
    Makes HasDistinct field c := by
  refine ⟨h.1, fun {depth o v} hv => ?_⟩
  have hreading : HasReading depth o (some v) := toOption_eq_some_iff.mpr hv.1
  exact h.2 hreading

/-- A record reads as its members say. -/
theorem follows_record {changes : Changes Value σ}
    (h : List.Forall₂ (Makes HasDistinct) r.fields changes)
    (hnames : (changes.map Prod.fst).Nodup) : Follows r.decode (recordOf? changes r.blank) := by
  intro depth o v hv hdistinct
  rcases value_cases hv with ⟨s, start, stop, rfl, hs⟩ |
    ⟨start, items, tail, vs, rfl, rfl, hd, htail, hitems⟩ |
    ⟨start, members, tail, es, rfl, rfl, hd, htail, hmembers⟩
  · rcases scalar_cases hs with ⟨rfl, rfl⟩ | ⟨_, rfl, rfl⟩ | ⟨_, rfl, rfl⟩ | ⟨_, rfl, rfl⟩ <;> rfl
  · have hall : ∀ v ∈ vs, Distinct v := distinctItems_iff.mp hdistinct
    have hos : List.Forall₂ (HasDistinct (depth - 1)) items vs :=
      forall₂_imp_mem hitems fun o v hmem ho => ⟨ho, hall v hmem⟩
    rw [toOption_decode_list h hnames hd htail hos, recordOf?, fieldsOf?]
    split <;> rfl
  · have hall : ∀ e ∈ es, Distinct e.2 := distinctMembers_iff.mp hdistinct.2
    have hms : List.Forall₂ (Holds HasDistinct changes (depth - 1)) members es :=
      forall₂_imp_mem hmembers fun m e hmem hm =>
        ⟨hm.1, skip_of_value hm.2, fun _ => ⟨hm.2, hall e hmem⟩⟩
    exact toOption_decode_object h hd htail hms (once_of_nodup hdistinct.1)

/-- Fields that leave each other's part of the record alone. -/
def Independent (c d : String × (β → Option (σ → σ))) : Prop :=
  ∀ v w f g, c.2 v = some f → d.2 w = some g → ∀ s, f (g s) = g (f s)

theorem independent_map {α α' : Type} {read : β → Option α} {read' : β → Option α'}
    (name name' : String) {set : α → σ → σ} {set' : α' → σ → σ}
    (h : ∀ a b s, set a (set' b s) = set' b (set a s)) :
    Independent (name, fun b => (read b).map set) (name', fun b => (read' b).map set') := by
  intro v w f g hf hg s
  obtain ⟨a, _, rfl⟩ := Option.map_eq_some_iff.mp hf
  obtain ⟨b, _, rfl⟩ := Option.map_eq_some_iff.mp hg
  exact h a b s

theorem Independent.lift {c d : String × (Value → Option (σ → σ))} (h : Independent c d) :
    Independent (lift c) (lift d) := by
  intro v w f g hf hg
  obtain ⟨v, _, hf⟩ := Option.bind_eq_some_iff.mp hf
  obtain ⟨w, _, hg⟩ := Option.bind_eq_some_iff.mp hg
  exact h v w f g hf hg

theorem change_unknown {e : String × β} (h : e.1 ∉ changes.map Prod.fst) (s : σ) :
    change changes s e = some s := by
  cases hfind : changes.find? (·.1 = e.1) with
  | none => rw [change, hfind]
  | some c => exact absurd (find?_known hfind) h

theorem change_comm (h : changes.Pairwise Independent) {e f : String × β}
    (hne : e.1 = f.1 → e.1 ∉ changes.map Prod.fst) (s : σ) :
    (change changes s e >>= fun s => change changes s f) =
      change changes s f >>= fun s => change changes s e := by
  by_cases heq : e.1 = f.1
  · simp only [change_unknown (hne heq), change_unknown (heq ▸ hne heq)]
  unfold change
  cases he : changes.find? (·.1 = e.1) with
  | none => cases changes.find? (·.1 = f.1) <;> simp
  | some c =>
    cases hf : changes.find? (·.1 = f.1) with
    | none => simp
    | some d =>
      have hkeys : c.1 = e.1 ∧ d.1 = f.1 :=
        ⟨by simpa using List.find?_some he, by simpa using List.find?_some hf⟩
      have hcd : c ≠ d := fun hcd => heq (hkeys.1.symm.trans (hcd ▸ hkeys.2))
      have : Std.Symm (Independent (β := β) (σ := σ)) :=
        ⟨fun c d h v w f g hf hg s => (h w v g f hg hf s).symm⟩
      have hind := h.forall (List.mem_of_find?_eq_some he) (List.mem_of_find?_eq_some hf) hcd
      dsimp only
      cases hc : c.2 e.2 with
      | none => cases d.2 f.2 <;> rfl
      | some a =>
        cases hd : d.2 f.2 with
        | none => rfl
        | some b => exact congrArg some (hind _ _ a b hc hd s).symm

/-- If no known key comes twice, the order of the members does not matter. -/
theorem foldlM_perm (h : changes.Pairwise Independent) {es fs : List (String × β)}
    (hp : es.Perm fs) (honce : Once changes es) (s : σ) :
    es.foldlM (change changes) s = fs.foldlM (change changes) s := by
  induction hp generalizing s with
  | nil => rfl
  | cons e _ ih =>
    rw [List.foldlM_cons, List.foldlM_cons]
    exact congrArg (change changes s e >>= ·) (funext (ih (List.pairwise_cons.mp honce).2))
  | swap e f es =>
    have hne := (List.pairwise_cons.mp honce).1 e List.mem_cons_self
    simp only [List.foldlM_cons, ← bind_assoc, change_comm h hne]
  | trans hp _ ih ih' => exact (ih honce s).trans (ih' (honce.perm hp) s)

/-- Fields that make like changes of a value and of its canonical form, for some likeness of
records. -/
def Steady (R : σ → σ → Prop) (c : String × (Value → Option (σ → σ))) : Prop :=
  ∀ v, Distinct v → Option.Rel (fun f g => ∀ s t, R s t → R (f s) (g t)) (c.2 v) (c.2 v.canonical)

theorem rel_foldlM {R : σ → σ → Prop} {changes : Changes Value σ}
    (h : ∀ c ∈ changes, Steady R c) {es : Members}
    (hdistinct : ∀ e ∈ es, Distinct e.2) {s t : σ} (hst : R s t) :
    Option.Rel R (es.foldlM (change changes) s)
      ((es.map canonicalMember).foldlM (change changes) t) := by
  induction es generalizing s t with
  | nil => exact .some hst
  | cons e es ih =>
    obtain ⟨hfirst, hrest⟩ := List.forall_mem_cons.mp hdistinct
    rw [List.map_cons, List.foldlM_cons, List.foldlM_cons, change, change, canonicalMember]
    cases hfind : changes.find? (·.1 = e.1) with
    | none => exact ih hrest hst
    | some c =>
      have hc := h c (List.mem_of_find?_eq_some hfind) e.2 hfirst
      dsimp only
      generalize c.2 e.2 = a at hc
      generalize c.2 e.2.canonical = b at hc
      cases hc with
      | none => exact .none
      | some hfg => exact ih hrest (hfg s t hst)

/-- What a value reads as is like what its canonical form reads as. -/
theorem rel_recordOf {R : σ → σ → Prop} {changes : Changes Value σ} {blank : σ}
    (hind : changes.Pairwise Independent) (hsteady : ∀ c ∈ changes, Steady R c)
    (hblank : R blank blank) (hv : Distinct v) :
    Option.Rel R (recordOf? changes blank v) (recordOf? changes blank v.canonical) := by
  cases v with
  | null | bool | number | string => exact .none
  | array vs =>
    simp only [recordOf?, Value.canonical, canonicalItems_eq, fieldsOf?, List.length_map]
    split
    · -- The items of a list keep their places, so each field gets the same item.
      have hzip : (changes.map Prod.fst).zip (vs.map Value.canonical) =
          ((changes.map Prod.fst).zip vs).map canonicalMember := List.zip_map_right
      rw [Option.bind_some, Option.bind_some, hzip]
      exact rel_foldlM hsteady
        (fun e he => distinctItems_iff.mp hv e.2 (List.of_mem_zip he).2) hblank
    · exact .none
  | object es =>
    have hkeys : ((es.map canonicalMember).map Prod.fst).Nodup := by
      rw [List.map_map]
      exact hv.1
    have hperm := foldlM_perm hind (canonicalMembers_perm hv.1).symm (once_of_nodup hkeys) blank
    simp only [recordOf?, Value.canonical, fieldsOf?, Option.bind_some, ← hperm]
    exact rel_foldlM hsteady (distinctMembers_iff.mp hv.2) hblank

end Screenwright.Proofs.Records
