import Screenwright.Proofs.Documents
import Screenwright.Proofs.Grammar

namespace Screenwright.Proofs.Rewriting
open Json Outline Decode Design Canonical Numerals Values Records Documents Texts Containers Grammar
open Outcomes

variable {depth : Nat} {o : Outline} {d : Doc}

theorem skip_of_doc (h : HasDoc o d) : skip o = .ok () := by
  induction d using doc_induction generalizing o with
  | null | bool =>
    obtain ⟨_, _, rfl⟩ := h
    rfl
  | number | string =>
    obtain ⟨_, _, _, rfl, _⟩ := h
    rfl
  | list ds ih =>
    obtain ⟨start, items, stop, rfl, hitems⟩ := h
    have hall := forall₂_imp_mem (hasDocs_iff.mp hitems) fun o d hd ho => ih d hd ho
    have hskipped := skipItems_ok fun o ho => by
      obtain ⟨_, _, hskip⟩ := exists_of_forall₂ hall.flip ho
      exact hskip
    rw [skip, hskipped]
    rfl
  | object ds ih =>
    obtain ⟨start, members, stop, rfl, hmembers⟩ := h
    have hall := forall₂_imp_mem (hasDocMembers_iff.mp hmembers) fun m e he hm => ih e he hm.2
    have hskipped := skipMembers_ok fun m hm => by
      obtain ⟨_, _, hskip⟩ := exists_of_forall₂ hall.flip hm
      exact hskip
    rw [skip, hskipped]
    rfl

mutual

/-- What a document reads as, if there is enough room for its nesting. -/
def valueAt? (depth : Nat) : Doc → Option Value
  | .null => some .null
  | .bool b => some (.bool b)
  | .number n => n.map .number
  | .string s => s.map .string
  | .list ds => if 1 < depth then (itemsAt? (depth - 1) ds).map .array else none
  | .object ds => if 1 < depth then (membersAt? (depth - 1) ds).map .object else none

def itemsAt? (depth : Nat) : List Doc → Option (List Value)
  | [] => some []
  | d :: ds => (valueAt? depth d).bind fun v => (itemsAt? depth ds).map (v :: ·)

def membersAt? (depth : Nat) : DocMembers → Option Members
  | [] => some []
  | (key, d) :: ds => key.bind fun name => (valueAt? depth d).bind fun v =>
      (membersAt? depth ds).map ((name, v) :: ·)

end

theorem toOption_enter (depth : Nat) (start : List Char) :
    (enter depth start).toOption = if 1 < depth then some (depth - 1) else none := by
  unfold enter
  by_cases h : 1 < depth
  · rw [if_neg (Nat.not_le.mpr h), if_pos h]
    rfl
  · rw [if_pos (Nat.not_lt.mp h), if_neg h]
    rfl

theorem toOption_valueItems {os : List Outline} {ds : List Doc}
    (h : List.Forall₂ (fun o d => HasReading depth o (valueAt? depth d)) os ds) :
    (valueItems depth os).toOption = itemsAt? depth ds := by
  induction h with
  | nil => rfl
  | @cons o d os ds ho _ ih =>
    rw [valueItems, itemsAt?, toOption_bind, ho]
    refine congrArg _ (funext fun v => ?_)
    rw [toOption_bind, ih, Option.map_eq_bind]
    rfl

theorem toOption_valueMembers {ms : List (Key × Outline)} {ds : DocMembers}
    (h : List.Forall₂ (fun m e => HasKey m.1.name e.1 ∧ HasReading depth m.2 (valueAt? depth e.2))
      ms ds) : (valueMembers depth ms).toOption = membersAt? depth ds := by
  induction h with
  | nil => rfl
  | @cons m e ms ds hm _ ih =>
    obtain ⟨key, o⟩ := m
    obtain ⟨hkey, ho⟩ := hm
    rw [valueMembers, membersAt?, toOption_bind, hkey]
    refine congrArg _ (funext fun name => ?_)
    rw [toOption_bind, ho]
    refine congrArg _ (funext fun v => ?_)
    rw [toOption_bind, ih, Option.map_eq_bind]
    rfl

/-- What can be read of an outline depends on its document. -/
theorem reading_of_doc (h : HasDoc o d) : HasReading depth o (valueAt? depth d) := by
  induction d using doc_induction generalizing depth o with
  | null | bool =>
    obtain ⟨_, _, rfl⟩ := h
    rfl
  | number | string =>
    obtain ⟨read, _, _, rfl, hread⟩ := h
    change (_ <$> read).toOption = _
    rw [toOption_map]
    exact congrArg _ hread
  | list ds ih =>
    obtain ⟨start, items, stop, rfl, hitems⟩ := h
    have hread := toOption_valueItems
      (forall₂_imp_mem (hasDocs_iff.mp hitems) fun o d hd ho => @ih d hd (depth - 1) o ho)
    rw [HasReading, value, toOption_bind, toOption_enter, valueAt?]
    split
    · rw [Option.bind_some, toOption_bind, hread, Option.map_eq_bind]
      rfl
    · rfl
  | object ds ih =>
    obtain ⟨start, members, stop, rfl, hmembers⟩ := h
    have hread := toOption_valueMembers (forall₂_imp_mem (hasDocMembers_iff.mp hmembers)
      fun m e he hm => ⟨hm.1, @ih e he (depth - 1) m.2 hm.2⟩)
    rw [HasReading, value, toOption_bind, toOption_enter, valueAt?]
    split
    · rw [Option.bind_some, toOption_bind, hread, Option.map_eq_bind]
      rfl
    · rfl

/-- What the fields of a node do to it, as far as their values can be read. -/
abbrev nodeFields : Changes (Option Value) Node := nodeChanges.map lift

def fieldNames : List String := ["type", "isCanvas", "props", "displayName", "nodes", "parent"]

abbrev Entries := List (String × Option Value)

/-- Members by their names, with what can be read of their values. -/
def entriesAt? (depth : Nat) (ds : DocMembers) : Option Entries :=
  ds.mapM fun m => m.1.map fun name => (name, valueAt? depth m.2)

instance (es : Entries) : Decidable (Once nodeFields es) :=
  inferInstanceAs (Decidable (es.Pairwise fun e f => e.1 = f.1 → e.1 ∉ nodeFields.map Prod.fst))

/-- The node that members make, unless a field comes twice. -/
def nodeOfEntries? (es : Entries) : Option Node :=
  if Once nodeFields es then es.foldlM (change nodeFields) blankNode else none

def nodeAt? (depth : Nat) : Doc → Option Node
  | .object ds => (entriesAt? (depth - 1) ds).bind nodeOfEntries?
  | .list ds =>
    if ds.length ≤ nodeFields.length then
      (fieldNames.zip (ds.map (valueAt? (depth - 1)))).foldlM (change nodeFields) blankNode
    else none
  | _ => none

theorem entriesAt?_cons (depth : Nat) (m : Option String × Doc) (ds : DocMembers) :
    entriesAt? depth (m :: ds) = m.1.bind fun name =>
      (entriesAt? depth ds).map ((name, valueAt? depth m.2) :: ·) := by
  rw [entriesAt?, List.mapM_cons]
  cases m.1 with
  | none => rfl
  | some name =>
    change (entriesAt? depth ds).bind _ = _
    cases entriesAt? depth ds <;> rfl

theorem entries_cases (depth : Nat) {ms : List (Key × Outline)} {ds : DocMembers}
    (h : List.Forall₂ (EntryFor HasKey HasDoc) ms ds) :
    (entriesAt? depth ds = none ∧ ∃ m ∈ ms, m.1.name.toOption = none) ∨
      ∃ es, entriesAt? depth ds = some es ∧
        List.Forall₂ (Holds HasReading nodeFields depth) ms es := by
  induction h with
  | nil => exact .inr ⟨[], rfl, .nil⟩
  | @cons m e ms ds hm _ ih =>
    rw [entriesAt?_cons]
    obtain ⟨hkey, ho⟩ := hm
    cases hname : e.1 with
    | none =>
      exact .inl ⟨rfl, m, List.mem_cons_self, hkey.trans hname⟩
    | some name =>
      rcases ih with ⟨hnone, m', hm', hkey'⟩ | ⟨es, hes, hholds⟩
      · exact .inl ⟨by rw [hnone]; rfl, m', List.mem_cons_of_mem _ hm', hkey'⟩
      · refine .inr ⟨_, by rw [hes]; rfl, .cons ⟨?_, skip_of_doc ho, fun _ => ?_⟩ hholds⟩
        · exact toOption_eq_some_iff.mp (hkey.trans hname)
        · exact reading_of_doc ho

theorem toOption_node (hd : 1 < depth) (h : HasDoc o d) :
    (nodeRecord.decode depth o).toOption = nodeAt? depth d := by
  cases d with
  | null | bool =>
    obtain ⟨_, _, rfl⟩ := h
    rfl
  | number | string =>
    obtain ⟨_, _, _, rfl, _⟩ := h
    rfl
  | list ds =>
    obtain ⟨start, items, stop, rfl, hitems⟩ := h
    have hread : List.Forall₂ (HasReading (depth - 1)) items (ds.map (valueAt? (depth - 1))) :=
      List.forall₂_map_right_iff.mpr ((hasDocs_iff.mp hitems).imp fun _ _ => reading_of_doc)
    rw [toOption_decode_list nodeRecord_reads (by decide) hd rfl hread, List.length_map]
    rfl
  | object ds =>
    obtain ⟨start, members, stop, rfl, hmembers⟩ := h
    rw [nodeAt?]
    rcases entries_cases (depth - 1) (hasDocMembers_iff.mp hmembers) with
      ⟨hnone, hkey⟩ | ⟨es, hes, hholds⟩
    · rw [hnone, decode_object hd rfl, toOption_map, toOption_members_unreadable hkey]
      rfl
    · rw [hes, Option.bind_some, nodeOfEntries?]
      by_cases honce : Once nodeFields es
      · rw [if_pos honce, toOption_decode_object nodeRecord_reads hd rfl hholds honce]
        rfl
      · have hrepeated : ¬ (Once nodeFields es ∧ Fresh nodeFields [] es) := fun h => honce h.1
        rw [if_neg honce, decode_object hd rfl, toOption_map,
          toOption_members_repeated nodeRecord_reads hholds hrepeated]
        rfl

theorem independent_nodeFields : nodeFields.Pairwise Independent :=
  List.pairwise_map.mpr (independent_nodeChanges.imp Independent.lift)

section
variable {es es' : Entries} {name : String}

theorem nodeOfEntries?_perm (h : es.Perm es') : nodeOfEntries? es = nodeOfEntries? es' := by
  unfold nodeOfEntries?
  by_cases honce : Once nodeFields es
  · rw [if_pos honce, if_pos (honce.perm h), foldlM_perm independent_nodeFields h honce]
  · rw [if_neg honce, if_neg fun honce' => honce (honce'.perm h.symm)]

/-- A first member that repeats no field can be left out if it changes nothing. -/
theorem nodeOfEntries?_cons {b : Option Value}
    (hnew : ∀ e ∈ es, name = e.1 → name ∉ fieldNames)
    (hsame : change nodeFields blankNode (name, b) = some blankNode) :
    nodeOfEntries? ((name, b) :: es) = nodeOfEntries? es := by
  have honce : Once nodeFields ((name, b) :: es) ↔ Once nodeFields es := by
    rw [Once, List.pairwise_cons]
    exact and_iff_right hnew
  unfold nodeOfEntries?
  simp only [honce, List.foldlM_cons, hsame, Option.bind_eq_bind, Option.bind_some]

/-- Only what a first member changes matters. -/
theorem nodeOfEntries?_congr {b b' : Option Value}
    (h : ∀ n, change nodeFields n (name, b) = change nodeFields n (name, b')) :
    nodeOfEntries? ((name, b) :: es) = nodeOfEntries? ((name, b') :: es) := by
  have honce : Once nodeFields ((name, b) :: es) ↔ Once nodeFields ((name, b') :: es) := by
    rw [Once, Once, List.pairwise_cons, List.pairwise_cons]
  unfold nodeOfEntries?
  simp only [honce, List.foldlM_cons, h]

end

theorem change_null : ∀ name ∈ fieldNames,
    change nodeFields blankNode (name, some .null) = some blankNode := by
  simp only [fieldNames, List.forall_mem_cons]
  exact ⟨rfl, rfl, rfl, rfl, rfl, rfl, fun _ h => nomatch h⟩

/-- A type that is a string means what an object with that name means. -/
theorem change_type (hd : 1 < depth) (s : Option String) (n : Node) :
    change nodeFields n ("type", valueAt? depth (.string s)) =
      change nodeFields n
        ("type", valueAt? depth (.object [(some "resolvedName", .string s)])) := by
  have hobject : valueAt? depth (.object [(some "resolvedName", .string s)]) =
      s.map fun s => .object [("resolvedName", .string s)] := by
    rw [valueAt?, if_pos hd]
    cases s <;> rfl
  rw [hobject]
  cases s <;> rfl

theorem entriesAt?_perm (depth : Nat) {ds ds' : DocMembers} (h : ds.Perm ds') :
    Option.Rel List.Perm (entriesAt? depth ds) (entriesAt? depth ds') := by
  induction h with
  | nil => exact .some .nil
  | cons m _ ih =>
    rw [entriesAt?_cons, entriesAt?_cons]
    cases m.1 with
    | none => exact .none
    | some name => exact rel_map ih fun _ _ h => h.cons _
  | swap m m' ds =>
    simp only [entriesAt?_cons]
    cases m.1 with
    | none => cases m'.1 <;> exact .none
    | some name =>
      cases m'.1 with
      | none => exact .none
      | some name' =>
        cases entriesAt? depth ds with
        | none => exact .none
        | some es => exact .some (.swap _ _ _)
  | @trans ds₁ ds₂ ds₃ _ _ ih ih' =>
    generalize entriesAt? depth ds₁ = es₁ at ih ⊢
    generalize entriesAt? depth ds₂ = es₂ at ih ih'
    generalize entriesAt? depth ds₃ = es₃ at ih' ⊢
    cases ih with
    | none => exact ih'
    | some h =>
      cases ih' with
      | some h' => exact .some (h.trans h')

/-- The order of a node's members does not matter. -/
theorem nodeAt?_perm {ds ds' : DocMembers} (h : ds.Perm ds') :
    nodeAt? depth (.object ds) = nodeAt? depth (.object ds') := by
  have hperm := entriesAt?_perm (depth - 1) h
  rw [nodeAt?, nodeAt?]
  generalize entriesAt? (depth - 1) ds = es at hperm
  generalize entriesAt? (depth - 1) ds' = es' at hperm
  cases hperm with
  | none => rfl
  | some h => exact nodeOfEntries?_perm h

theorem nodeAt?_cons (name : String) (d : Doc) (ds : DocMembers) :
    nodeAt? depth (.object ((some name, d) :: ds)) =
      (entriesAt? (depth - 1) ds).bind fun es =>
        nodeOfEntries? ((name, valueAt? (depth - 1) d) :: es) := by
  rw [nodeAt?, entriesAt?_cons]
  exact Option.bind_map

theorem keys_of_entries {ds : DocMembers} {es : Entries} (h : entriesAt? depth ds = some es) :
    ∀ e ∈ es, some e.1 ∈ ds.map Prod.fst := by
  induction ds generalizing es with
  | nil =>
    cases h
    exact fun _ h => nomatch h
  | cons m ds ih =>
    rw [entriesAt?_cons, Option.bind_eq_some_iff] at h
    obtain ⟨name, hname, h⟩ := h
    obtain ⟨es, hes, rfl⟩ := Option.map_eq_some_iff.mp h
    rw [List.forall_mem_cons]
    exact ⟨by simp [hname], fun e he => List.mem_cons_of_mem _ (ih hes e he)⟩

/-- A member that is no field does nothing. -/
theorem nodeAt?_unknown {name : String} (hname : name ∉ fieldNames) (d : Doc) (ds : DocMembers) :
    nodeAt? depth (.object ((some name, d) :: ds)) = nodeAt? depth (.object ds) := by
  rw [nodeAt?_cons, nodeAt?]
  exact congrArg _ (funext fun es =>
    nodeOfEntries?_cons (fun _ _ _ => hname) (change_unknown hname _))

/-- A field that is `null` may as well be absent. -/
theorem nodeAt?_null {name : String} (hname : name ∈ fieldNames) {ds : DocMembers}
    (habsent : ∀ m ∈ ds, m.1 ≠ some name) :
    nodeAt? depth (.object ((some name, .null) :: ds)) = nodeAt? depth (.object ds) := by
  rw [nodeAt?_cons, nodeAt?]
  cases hes : entriesAt? (depth - 1) ds with
  | none => rfl
  | some es =>
    refine nodeOfEntries?_cons (fun e he heq => ?_) (change_null name hname)
    obtain ⟨m, hm, hkey⟩ := List.mem_map.mp (keys_of_entries hes e he)
    exact absurd (hkey.trans (congrArg some heq.symm)) (habsent m hm)

theorem nodeAt?_type (hd : 2 < depth) (s : Option String) (ds : DocMembers) :
    nodeAt? depth (.object ((some "type", .string s) :: ds)) =
      nodeAt? depth
        (.object ((some "type", .object [(some "resolvedName", .string s)]) :: ds)) := by
  rw [nodeAt?_cons, nodeAt?_cons]
  exact congrArg _ (funext fun es => nodeOfEntries?_congr (change_type (by omega) s))

/-- No field of a node comes twice among the members. -/
def FieldsOnce (ds : DocMembers) : Prop :=
  ds.Pairwise fun m m' => m.1 = m'.1 → ∀ name ∈ fieldNames, m.1 ≠ some name

/-- What may be done to the members of a node: reordering, adding one that is no field, dropping or
adding a field that is `null`, and naming its type directly or by an object. -/
inductive Rewrite : DocMembers → DocMembers → Prop where
  | reorder {ds ds' : DocMembers} (h : ds.Perm ds') : Rewrite ds ds'
  | ignored {ds ds' : DocMembers} (name : String) (hname : name ∉ fieldNames) (d : Doc)
      (h : ds'.Perm ((some name, d) :: ds)) : Rewrite ds ds'
  | dropNull {ds ds' : DocMembers} (name : String) (hname : name ∈ fieldNames)
      (h : ds.Perm ((some name, .null) :: ds')) : Rewrite ds ds'
  | addNull {ds ds' : DocMembers} (name : String) (hname : name ∈ fieldNames)
      (habsent : ∀ m ∈ ds, m.1 ≠ some name) (h : ds'.Perm ((some name, .null) :: ds)) :
      Rewrite ds ds'
  | wrapType {ds ds' rest : DocMembers} (s : Option String)
      (h : ds.Perm ((some "type", .string s) :: rest))
      (h' : ds'.Perm ((some "type", .object [(some "resolvedName", .string s)]) :: rest)) :
      Rewrite ds ds'
  | unwrapType {ds ds' rest : DocMembers} (s : Option String)
      (h : ds.Perm ((some "type", .object [(some "resolvedName", .string s)]) :: rest))
      (h' : ds'.Perm ((some "type", .string s) :: rest)) : Rewrite ds ds'

theorem nodeAt?_rewrite {ds ds' : DocMembers} (h : Rewrite ds ds') (honce : FieldsOnce ds)
    (hd : 2 < depth) : nodeAt? depth (.object ds) = nodeAt? depth (.object ds') := by
  cases h with
  | reorder h => exact nodeAt?_perm h
  | ignored name hname d h => rw [nodeAt?_perm h, nodeAt?_unknown hname]
  | dropNull name hname h =>
    have honce' : FieldsOnce ((some name, .null) :: ds') :=
      (h.pairwise_iff fun hmm heq => heq ▸ hmm heq.symm).mp honce
    have habsent : ∀ m ∈ ds', m.1 ≠ some name := fun m hm heq =>
      (List.pairwise_cons.mp honce').1 m hm heq.symm name hname rfl
    rw [nodeAt?_perm h, nodeAt?_null hname habsent]
  | addNull name hname habsent h => rw [nodeAt?_perm h, nodeAt?_null hname habsent]
  | wrapType s h h' => rw [nodeAt?_perm h, nodeAt?_perm h', nodeAt?_type hd]
  | unwrapType s h h' => rw [nodeAt?_perm h, nodeAt?_perm h', nodeAt?_type hd]

def memberNode? (m : Option String × Doc) : Option (String × Node) :=
  m.1.bind fun id => (nodeAt? (depthLimit - 1) m.2).map fun n => (id, n)

/-- The design that the members of a document stand for. -/
def designOf? (ds : DocMembers) : Option DesignTree :=
  (ds.mapM memberNode?).map fun ns => .ofList (ns.map fun n => { n.2 with id := n.1 })

theorem toOption_member {m : Key × Outline} {e : Option String × Doc}
    (h : EntryFor HasKey HasDoc m e) :
    (do return (← m.1.name, ← nodeRecord.decode (depthLimit - 1) m.2) :
      Except Fault (String × Node)).toOption = memberNode? e := by
  obtain ⟨hkey, hdoc⟩ := h
  rw [toOption_bind, hkey]
  refine congrArg _ (funext fun id => ?_)
  rw [toOption_bind, toOption_node (by decide) hdoc, Option.map_eq_bind]
  rfl

/-- What a text is as a design depends on its document alone. -/
theorem parse_of_writes {source : String} {ds : DocMembers}
    (h : Writes source.toList (.object ds)) :
    (DesignTree.parse source).toOption = designOf? ds := by
  obtain ⟨hdoc, hstop⟩ := (stands_of_writes h).reads
  obtain ⟨start, members, stop, ho, hmembers⟩ := hdoc
  have heach := toOption_mapM ((hasDocMembers_iff.mp hmembers).imp fun _ _ => toOption_member)
  rw [DesignTree.parse, toOption_whole hstop, ho, designOf?, ← heach]
  change ((members.mapM fun m => (do return (← m.1.name, ← nodeRecord.decode (depthLimit - 1) m.2) :
    Except Fault (String × Node))) >>= pure >>= fun ns =>
      (.ok (.ofList (ns.map fun n => { n.2 with id := n.1 })) :
        Except Fault DesignTree)).toOption = _
  rw [bind_pure, toOption_bind, Option.map_eq_bind]
  rfl

/-- Rewriting a node leaves the outcome of reading the document as it is: the same design, or none,
however deeply an added member is nested and whatever is in it. -/
theorem parse_rewritten {source source' : String} {before after : DocMembers} {id : Option String}
    {ds ds' : DocMembers}
    (hsource : Writes source.toList (.object (before ++ (id, .object ds) :: after)))
    (hsource' : Writes source'.toList (.object (before ++ (id, .object ds') :: after)))
    (honce : FieldsOnce ds) (hrewrite : Rewrite ds ds') (tree : DesignTree) :
    DesignTree.parse source = .ok tree ↔ DesignTree.parse source' = .ok tree := by
  have hnode : nodeAt? (depthLimit - 1) (.object ds) = nodeAt? (depthLimit - 1) (.object ds') :=
    nodeAt?_rewrite hrewrite honce (by decide)
  have hmember : memberNode? (id, .object ds) = memberNode? (id, .object ds') := by
    rw [memberNode?, memberNode?, hnode]
  have hsame : designOf? (before ++ (id, .object ds) :: after) =
      designOf? (before ++ (id, .object ds') :: after) := by
    rw [designOf?, designOf?, List.mapM_append, List.mapM_append, List.mapM_cons, List.mapM_cons,
      hmember]
  rw [← toOption_eq_some_iff, ← toOption_eq_some_iff, parse_of_writes hsource,
    parse_of_writes hsource', hsame]

theorem padded_self (core : List Char) : Padded core core := ⟨[], [], rfl, rfl, by simp⟩

def deep : Nat → Doc
  | 0 => .list []
  | n + 1 => .list [deep n]

def deepText : Nat → List Char
  | 0 => ['[', ']']
  | n + 1 => '[' :: (deepText n ++ [']'])

theorem writes_deep (n : Nat) : Writes (deepText n) (deep n) := by
  induction n with
  | zero => exact ⟨[], [], trivial, rfl, padded_self _⟩
  | succ n ih =>
    refine ⟨[deepText n], [], ⟨ih, trivial⟩, rfl, ?_⟩
    simpa [joined, commas, deepText] using padded_self (deepText (n + 1))

theorem writes_plain {body : List Char} {s : String}
    (hbody : (body.all fun c => c ≠ '"' ∧ c ≠ '\\' ∧ ¬ c.toNat < 32) = true)
    (hread : (readText (body ++ ['"'])).toOption = some s) :
    WritesString ('"' :: (body ++ ['"'])) (some s) := by
  refine ⟨body, ?_, hread.symm, padded_self _⟩
  clear hread
  induction body with
  | nil => exact .nil
  | cons c cs ih =>
    rw [List.all_cons, Bool.and_eq_true, decide_eq_true_eq] at hbody
    obtain ⟨⟨hquote, hescape, hcontrol⟩, hcs⟩ := hbody
    exact .plain hquote hescape hcontrol (ih hcs)

/-- The numeral `1e999`. -/
def huge : Numeral := ⟨false, ['1'], none, some (false, ['9', '9', '9'])⟩

theorem writes_huge : Writes ['1', 'e', '9', '9', '9'] (.number (huge.value []).toOption) := by
  have hone : Digits ['1'] := ⟨List.cons_ne_nil _ _, List.all_eq_true.mp rfl⟩
  have hnines : Digits ['9', '9', '9'] := ⟨List.cons_ne_nil _ _, List.all_eq_true.mp rfl⟩
  have hnumber : WritesNumber ['1', 'e', '9', '9', '9'] huge :=
    .mk false (.digits (by decide) hone) .none (.digits (.inl rfl) (.inl rfl) hnines)
  exact ⟨_, huge, hnumber, rfl, padded_self _⟩

/-- Half a surrogate pair. -/
def half : List Char := ['\\', 'u', 'd', '8', '0', '0']

theorem writes_half :
    WritesString ('"' :: (half ++ ['"'])) (readText (half ++ ['"'])).toOption :=
  ⟨half, .unit (List.all_eq_true.mp rfl) .nil, rfl, padded_self _⟩

def plainNode : DocMembers := [(some "type", .string (some "Text"))]

/-- A node with a member that is no field, is nested too deeply to be read, and holds a number and a
string that cannot be read. -/
def strangeNode : DocMembers :=
  (some "x", .list [deep 200, .number (huge.value []).toOption,
    .string (readText (half ++ ['"'])).toOption]) :: plainNode

def plainSource : String := "\x7b\"a\":\x7b\"type\":\"Text\"\x7d\x7d"

def strangeSource : String :=
  "\x7b\"a\":\x7b\"x\":[" ++ String.ofList (deepText 200) ++
    ",1e999,\"\\ud800\"],\"type\":\"Text\"\x7d\x7d"

theorem writes_node {texts : List (List Char × List Char)} {ds : DocMembers}
    (h : WritesMembers texts ds) :
    Writes ("\x7b\"a\":\x7b".toList ++ (joined (texts.map memberText) ++ "\x7d\x7d".toList))
      (.object ([] ++ (some "a", .object ds) :: [])) := by
  have hkey : WritesString "\"a\"".toList (some "a") := @writes_plain ['a'] _ rfl rfl
  have hnode : Writes ('\x7b' :: (joined (texts.map memberText) ++ ['\x7d'])) (.object ds) :=
    ⟨texts, [], h, rfl, padded_self _⟩
  refine ⟨[("\"a\"".toList, _)], [], ⟨⟨hkey, hnode⟩, trivial⟩, rfl, ?_⟩
  have htext := padded_self
    ("\x7b\"a\":\x7b".toList ++ (joined (texts.map memberText) ++ "\x7d\x7d".toList))
  simpa [joined, commas, memberText] using htext

theorem parse_rewritten_strange :
    ∃ tree, DesignTree.parse plainSource = .ok tree ∧
      DesignTree.parse strangeSource = .ok tree := by
  have htype : WritesMembers [("\"type\"".toList, "\"Text\"".toList)] plainNode :=
    ⟨⟨@writes_plain "type".toList _ rfl rfl, @writes_plain "Text".toList _ rfl rfl⟩, trivial⟩
  have hx : WritesMembers [("\"x\"".toList, '[' :: (joined
      [deepText 200, ['1', 'e', '9', '9', '9'], '"' :: (half ++ ['"'])] ++ ([] ++ [']']))),
      ("\"type\"".toList, "\"Text\"".toList)] strangeNode :=
    ⟨⟨@writes_plain ['x'] _ rfl rfl, [deepText 200, _, _], [],
      ⟨writes_deep 200, writes_huge, writes_half, trivial⟩, rfl, padded_self _⟩, htype⟩
  have hplain : Writes plainSource.toList
      (.object ([] ++ (some "a", .object plainNode) :: [])) := writes_node htype
  have hstrange : Writes strangeSource.toList
      (.object ([] ++ (some "a", .object strangeNode) :: [])) := by
    have htext := writes_node hx
    have hdeep : (String.ofList (deepText 200)).toList = deepText 200 := String.toList_ofList
    rw [strangeSource, String.toList_append, String.toList_append, hdeep, List.append_assoc]
    generalize deepText 200 = text at htext ⊢
    simpa [joined, commas, memberText, half] using htext
  have hread : (DesignTree.parse plainSource).toOption.isSome = true := by decide +kernel
  obtain ⟨tree, htree⟩ := Option.isSome_iff_exists.mp hread
  have htree := toOption_eq_some_iff.mp htree
  have honce : FieldsOnce plainNode := List.pairwise_singleton _ _
  have hrewrite : Rewrite plainNode strangeNode := .ignored "x" (by decide) _ (.refl _)
  exact ⟨tree, htree, (parse_rewritten hplain hstrange honce hrewrite tree).mp htree⟩

end Screenwright.Proofs.Rewriting
