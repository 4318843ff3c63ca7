import Screenwright.Design.Document
import Screenwright.Proofs.Records

namespace Screenwright.Proofs.Documents
open Json Value Decode Design Canonical Values Records Outcomes

def kindOf? (v : Value) : Option Kind := (typeTag? v).map .ofTag

def propsOf? (v : Value) : Option Props :=
  (membersOf? (fun v => some (PropValue.ofValue v)) v).map .ofList

/-- What the fields of a node do to it. -/
def nodeChanges : Changes Value Node := [
  ("type", fun v => (nullableOf? kindOf? v).map fun kind n =>
    { n with kind := kind.getD (.unknown "") }),
  ("isCanvas", fun v => (nullableOf? boolOf? v).map fun a n => { n with isCanvas := a.getD false }),
  ("props", fun v => (nullableOf? propsOf? v).map fun a n => { n with props := a.getD ∅ }),
  ("displayName", fun v => (nullableOf? stringOf? v).map fun a n => { n with displayName := a }),
  ("nodes", fun v => (nullableOf? (itemsOf? stringOf?) v).map fun a n =>
    { n with children := a.getD [] }),
  ("parent", fun v => (nullableOf? stringOf? v).map fun a n => { n with parent := a })]

/-- The node that a value stands for; its id is not part of it. -/
def nodeOf? (v : Value) : Option Node := recordOf? nodeChanges blankNode v

/-- The design that a value stands for. -/
def designOf? (v : Value) : Option DesignTree :=
  (membersOf? nodeOf? v).map fun es => .ofList (es.map fun e => { e.2 with id := e.1 })

theorem exact_kind : Exact decodeKind kindOf? := by
  intro depth o
  have hlift : (liftM (value depth o) : Except Refusal Value).toOption =
      (value depth o).toOption := by
    cases value depth o <;> rfl
  rw [decodeKind, toOption_bind, hlift]
  refine congrArg _ (funext fun v => ?_)
  rw [kindOf?]
  cases typeTag? v <;> rfl

theorem exact_props : Exact Props.decode propsOf? := by
  have hdecode (depth : Nat) (o : Outline) :
      PropValue.decode depth o = PropValue.ofValue <$> value depth o := rfl
  intro depth o
  rw [Props.decode, toOption_map, exact_mapOf hdecode, Option.map_bind]
  rfl

theorem makes_field {α : Type} {decode : Nat → Outline → Except Fault α}
    {read : Value → Option α} (hread : Exact decode read) (name : String)
    (set : Option α → Node → Node) :
    Makes HasReading (name, field decode set)
      (lift (name, fun v => (nullableOf? read v).map set)) :=
  makes_exact hread.nullable name set

theorem nodeRecord_reads :
    List.Forall₂ (Makes HasReading) nodeRecord.fields (nodeChanges.map lift) := by
  refine .cons ⟨rfl, fun {depth o b} h s => ?_⟩ ?_
  · change (nullable (decodeKind depth) o >>= fun kind =>
      (.ok { s with kind := kind.getD (.unknown "") } : Except Refusal Node)).toOption = _
    rw [toOption_bind, exact_kind.nullable depth o, h]
    cases b with
    | none => rfl
    | some v =>
      change _ = ((nullableOf? kindOf? v).map _).map _
      rw [Option.map_map, Option.map_eq_bind]
      rfl
  · exact .cons (makes_field exact_bool _ _) (.cons (makes_field exact_props _ _)
      (.cons (makes_field exact_string _ _) (.cons (makes_field exact_string.listOf _ _)
        (.cons (makes_field exact_string _ _) .nil))))

theorem nodeRecord_makes : List.Forall₂ (Makes HasDistinct) nodeRecord.fields nodeChanges :=
  (List.forall₂_map_right_iff.mp nodeRecord_reads).imp fun _ _ => Makes.of_lift

theorem follows_node : Follows nodeRecord.decode nodeOf? :=
  follows_record nodeRecord_makes (by decide)

theorem follows_design : Follows decodeTree designOf? := by
  intro depth o v h hv
  have hread : decodeTree depth o =
      mapOf nodeRecord.decode depth o >>= fun es =>
        .ok (.ofList (es.map fun e => { e.2 with id := e.1 })) := rfl
  rw [hread, toOption_bind, follows_node.mapOf h hv, designOf?, Option.map_eq_bind]
  rfl

/-- What a text that holds a value is as a design. -/
theorem parse_design {source : String} {v : Value} (h : Value.parse source = .ok v)
    (hv : Distinct v) : (DesignTree.parse source).toOption = designOf? v :=
  follows_design.whole h hv

/-- Properties that hold the same under every key, in whatever order. -/
def SameProps (p q : Props) : Prop := ∀ key, p.get? key = q.get? key

/-- Nodes that differ in the order of their properties at most, and in their ids. -/
structure Alike (n n' : Node) : Prop where
  kind : n'.kind = n.kind
  isCanvas : n'.isCanvas = n.isCanvas
  props : SameProps n.props n'.props
  children : n'.children = n.children
  parent : n'.parent = n.parent
  displayName : n'.displayName = n.displayName

theorem Alike.refl (n : Node) : Alike n n := ⟨rfl, rfl, fun _ => rfl, rfl, rfl, rfl⟩

/-- A reader that does not see whether a value is in canonical form. -/
def Blind {α : Type} (R : α → α → Prop) (read : Value → Option α) : Prop :=
  ∀ v, Distinct v → Option.Rel R (read v) (read v.canonical)

theorem blind_of_eq {α : Type} {read : Value → Option α}
    (h : ∀ v, Distinct v → read v.canonical = read v) : Blind Eq read := by
  intro v hv
  rw [h v hv]
  cases read v with
  | none => exact .none
  | some a => exact .some rfl

theorem blind_string : Blind Eq stringOf? := blind_of_eq fun v _ => by cases v <;> rfl

theorem blind_bool : Blind Eq boolOf? := blind_of_eq fun v _ => by cases v <;> rfl

theorem blind_strings : Blind Eq (itemsOf? stringOf?) := blind_of_eq fun v _ => by
  cases v with
  | array vs =>
    have heach : stringOf? ∘ Value.canonical = stringOf? := by
      funext v
      cases v <;> rfl
    simp only [Value.canonical, canonicalItems_eq, itemsOf?, List.mapM_map, heach]
  | _ => rfl

theorem typeTag?_object {es : Members} (h : (es.map Prod.fst).Nodup) :
    typeTag? (.object es) = (memberAt es "resolvedName").bind stringOf? := by
  have hfilter := Keyed.filter_eq_find? h "resolvedName"
  simp only [typeTag?, memberAt, hfilter]
  generalize es.find? (·.1 = "resolvedName") = found
  rcases found with _ | ⟨key, v⟩
  · rfl
  · cases v <;> rfl

theorem blind_kind : Blind Eq kindOf? := blind_of_eq fun v hv => by
  cases v with
  | object es =>
    have hkeys := (ordered_canonicalMembers es).nodup
    rw [kindOf?, kindOf?, Value.canonical, typeTag?_object hv.1, typeTag?_object hkeys,
      memberAt_canonicalMembers hv.1]
    cases memberAt es "resolvedName" with
    | none => rfl
    | some v => cases v <;> rfl
  | _ => rfl

theorem Blind.nullable {α : Type} {R : α → α → Prop} {read : Value → Option α}
    (h : Blind R read) : Blind (Option.Rel R) (nullableOf? read) := by
  intro v hv
  have hsome : Option.Rel (Option.Rel R) ((read v).map some) ((read v.canonical).map some) :=
    rel_map (h v hv) fun _ _ => .some
  cases v with
  | null => exact .some .none
  | _ => exact hsome

theorem membersOf?_eq_some {α : Type} {read : Value → Option α} {es : Members}
    {as : List (String × α)} (h : membersOf? read (.object es) = some as) :
    as.map Prod.fst = es.map Prod.fst ∧ ∀ key, memberAt as key = (memberAt es key).bind read := by
  change es.mapM (fun e => (read e.2).map fun a => (e.1, a)) = some as at h
  induction es generalizing as with
  | nil =>
    cases h
    exact ⟨rfl, fun _ => rfl⟩
  | cons e es ih =>
    rw [List.mapM_cons, Option.bind_eq_bind, Option.bind_eq_some_iff] at h
    obtain ⟨_, hfirst, h⟩ := h
    obtain ⟨a, ha, rfl⟩ := Option.map_eq_some_iff.mp hfirst
    rw [Option.bind_eq_bind, Option.bind_eq_some_iff] at h
    obtain ⟨rest, hrest, h⟩ := h
    cases h
    obtain ⟨hkeys, hat⟩ := ih hrest
    refine ⟨by simp [hkeys], fun key => ?_⟩
    by_cases hkey : e.1 = key
    · simp [memberAt, hkey, ha]
    · simpa [memberAt, hkey] using hat key

theorem isSome_membersOf? {α : Type} {read : Value → Option α} {es : Members} :
    (membersOf? read (.object es)).isSome ↔ ∀ e ∈ es, (read e.2).isSome := by
  change (es.mapM fun e => (read e.2).map fun a => (e.1, a)).isSome ↔ _
  induction es with
  | nil => simp
  | cons e es ih =>
    rw [List.mapM_cons, List.forall_mem_cons, ← ih]
    cases read e.2 with
    | none => simp
    | some a => cases es.mapM fun e => (read e.2).map fun a => (e.1, a) <;> simp

/-- Members that a look-up does not tell apart, up to a likeness of what they hold. -/
def SameMembers {α : Type} (R : α → α → Prop) (as bs : List (String × α)) : Prop :=
  (as.map Prod.fst).Nodup ∧ (bs.map Prod.fst).Nodup ∧
    ∀ key, Option.Rel R (memberAt as key) (memberAt bs key)

theorem Blind.members {α : Type} {R : α → α → Prop} {read : Value → Option α}
    (h : Blind R read) : Blind (SameMembers R) (membersOf? read) := by
  intro v hv
  cases v with
  | object es =>
    obtain ⟨hkeys, hparts⟩ := hv
    have hparts := distinctMembers_iff.mp hparts
    have hsome (e) (he : e ∈ es) : (read e.2).isSome = (read e.2.canonical).isSome :=
      isSome_of_rel (h e.2 (hparts e he))
    have hiff : (∀ e ∈ canonicalMembers es, (read e.2).isSome) ↔ ∀ e ∈ es, (read e.2).isSome := by
      simp only [(canonicalMembers_perm hkeys).mem_iff, List.forall_mem_map, canonicalMember]
      exact forall₂_congr fun e he => by rw [hsome e he]
    -- So either both can be read or neither.
    rw [← isSome_membersOf?, ← isSome_membersOf?] at hiff
    rw [Value.canonical]
    cases has : membersOf? read (.object es) with
    | none =>
      cases hbs : membersOf? read (.object (canonicalMembers es)) with
      | none => exact .none
      | some bs => simp [has, hbs] at hiff
    | some as =>
      cases hbs : membersOf? read (.object (canonicalMembers es)) with
      | none => simp [has, hbs] at hiff
      | some bs =>
        obtain ⟨haskeys, hasat⟩ := membersOf?_eq_some has
        obtain ⟨hbskeys, hbsat⟩ := membersOf?_eq_some hbs
        refine .some ⟨haskeys ▸ hkeys, hbskeys ▸ (ordered_canonicalMembers es).nodup,
          fun key => ?_⟩
        rw [hasat, hbsat, memberAt_canonicalMembers hkeys]
        cases hv : memberAt es key with
        | none => exact .none
        | some v =>
          exact h v (hparts _ ((memberAt_eq_some_iff hkeys).mp hv))
  | _ => exact .none

theorem get?_ofList {α : Type} {as : List (String × α)} (h : (as.map Prod.fst).Nodup)
    (key : String) : (Catalog.ofList as).get? key = memberAt as key := by
  have h' : (as.reverse.map Prod.fst).Nodup := List.map_reverse ▸ List.nodup_reverse.mpr h
  rw [Catalog.get?_ofList, Keyed.find?_perm as.reverse_perm h', memberAt]

theorem ofValue_canonical (v : Value) : PropValue.ofValue v.canonical = PropValue.ofValue v := by
  cases v with
  | array vs => exact congrArg PropValue.other (canonical_canonical _)
  | object es => exact congrArg PropValue.other (canonical_canonical _)
  | _ => rfl

theorem blind_props : Blind SameProps propsOf? := by
  have hone : Blind Eq fun v => some (PropValue.ofValue v) :=
    blind_of_eq fun v _ => congrArg some (ofValue_canonical v)
  intro v hv
  refine rel_map (hone.members v hv) fun as bs h key => ?_
  rw [get?_ofList h.1, get?_ofList h.2.1]
  exact eq_of_rel (h.2.2 key)

theorem Blind.field {α : Type} {R : α → α → Prop} {read : Value → Option α} (h : Blind R read)
    (name : String) {set : Option α → Node → Node}
    (hset : ∀ a b, Option.Rel R a b → ∀ n n', Alike n n' → Alike (set a n) (set b n')) :
    Steady Alike (name, fun v => (nullableOf? read v).map set) := fun v hv =>
  rel_map (h.nullable v hv) hset

theorem steady_nodeChanges : ∀ c ∈ nodeChanges, Steady Alike c := by
  simp only [nodeChanges, List.forall_mem_cons]
  refine ⟨blind_kind.field _ fun a b h n n' hn => ?kind,
    blind_bool.field _ fun a b h n n' hn => ?isCanvas,
    blind_props.field _ fun a b h n n' hn => ?props,
    blind_string.field _ fun a b h n n' hn => ?displayName,
    blind_strings.field _ fun a b h n n' hn => ?children,
    blind_string.field _ fun a b h n n' hn => ?parent, fun _ h => nomatch h⟩
  case kind => exact { hn with kind := congrArg (Option.getD · _) (eq_of_rel h).symm }
  case isCanvas => exact { hn with isCanvas := congrArg (Option.getD · _) (eq_of_rel h).symm }
  case props =>
    cases h with
    | none => exact { hn with props := fun _ => rfl }
    | some h => exact { hn with props := h }
  case displayName => exact { hn with displayName := (eq_of_rel h).symm }
  case children => exact { hn with children := congrArg (Option.getD · _) (eq_of_rel h).symm }
  case parent => exact { hn with parent := (eq_of_rel h).symm }

theorem independent_nodeChanges : nodeChanges.Pairwise Independent := by
  simp only [nodeChanges, List.pairwise_cons, List.forall_mem_cons, List.not_mem_nil,
    false_imp_iff, implies_true, List.Pairwise.nil, and_true]
  and_intros <;> exact independent_map _ _ fun _ _ _ => rfl

theorem rel_node : Blind Alike nodeOf? := fun _ hv =>
  rel_recordOf independent_nodeChanges steady_nodeChanges (.refl _) hv

/-- Designs with the same ids, whose nodes are alike. -/
def SameDesign (t t' : DesignTree) : Prop := ∀ id, Option.Rel Alike (t.get? id) (t'.get? id)

theorem get?_design {es : List (String × Node)} (h : (es.map Prod.fst).Nodup) (id : String) :
    (DesignTree.ofList (es.map fun e => { e.2 with id := e.1 })).get? id =
      (memberAt es id).map fun n => { n with id := id } := by
  have hids : ((es.map fun e => { e.2 with id := e.1 }).map Node.id).Nodup := by
    rw [List.map_map]
    exact h
  have hreverse := (List.reverse_perm (es.map fun e => { e.2 with id := e.1 })).symm
  rw [DesignTree.get?_ofList, ← Keyed.find?_perm hreverse hids, List.find?_map, memberAt]
  change (es.find? (·.1 = id)).map _ = _
  cases hfind : es.find? (·.1 = id) with
  | none => rfl
  | some e =>
    obtain rfl : e.1 = id := by simpa using List.find?_some hfind
    rfl

/-- In canonical form, a value stands for the same design. -/
theorem blind_design : Blind SameDesign designOf? := by
  intro v hv
  refine rel_map (rel_node.members v hv) fun as bs h id => ?_
  rw [get?_design h.1, get?_design h.2.1]
  exact rel_map (h.2.2 id) fun n n' hn => { hn with }

end Screenwright.Proofs.Documents
