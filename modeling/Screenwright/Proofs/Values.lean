import Screenwright.Json.Decode
import Screenwright.Proofs.Canonical
import Screenwright.Proofs.Outcomes

namespace Screenwright.Proofs.Values
open Json Decode Canonical Outcomes

variable {depth : Nat} {start : List Char} {o : Outline} {v : Value}

theorem enter_ok_iff {inner : Nat} :
    enter depth start = .ok inner ↔ 1 < depth ∧ inner = depth - 1 := by
  unfold enter
  split
  · exact ⟨fun h => (nomatch h), fun h => by omega⟩
  · exact ⟨fun h => ⟨by omega, (Except.ok.inj h).symm⟩, fun h => congrArg Except.ok h.2.symm⟩

theorem valueItems_iff {os : List Outline} {vs : List Value} :
    valueItems depth os = .ok vs ↔ List.Forall₂ (fun o v => value depth o = .ok v) os vs := by
  induction os generalizing vs with
  | nil =>
    rw [valueItems, List.forall₂_nil_left_iff]
    exact ⟨fun h => (Except.ok.inj h).symm, fun h => congrArg Except.ok h.symm⟩
  | cons o os ih =>
    rw [valueItems, bind_ok_iff, List.forall₂_cons_left_iff]
    constructor
    · rintro ⟨v, hv, h⟩
      obtain ⟨vs, hvs, h⟩ := bind_ok_iff.mp h
      exact ⟨v, vs, hv, ih.mp hvs, (Except.ok.inj h).symm⟩
    · rintro ⟨v, vs, hv, hvs, rfl⟩
      exact ⟨v, hv, bind_ok_iff.mpr ⟨vs, ih.mpr hvs, rfl⟩⟩

/-- A member with a key and a value. -/
def HasMember (depth : Nat) (m : Key × Outline) (e : String × Value) : Prop :=
  m.1.name = .ok e.1 ∧ value depth m.2 = .ok e.2

theorem valueMembers_iff {ms : List (Key × Outline)} {es : Members} :
    valueMembers depth ms = .ok es ↔ List.Forall₂ (HasMember depth) ms es := by
  induction ms generalizing es with
  | nil =>
    rw [valueMembers, List.forall₂_nil_left_iff]
    exact ⟨fun h => (Except.ok.inj h).symm, fun h => congrArg Except.ok h.symm⟩
  | cons m ms ih =>
    obtain ⟨k, o⟩ := m
    rw [valueMembers, bind_ok_iff, List.forall₂_cons_left_iff]
    constructor
    · rintro ⟨name, hname, h⟩
      obtain ⟨v, hv, h⟩ := bind_ok_iff.mp h
      obtain ⟨es, hes, h⟩ := bind_ok_iff.mp h
      exact ⟨(name, v), es, ⟨hname, hv⟩, ih.mp hes, (Except.ok.inj h).symm⟩
    · rintro ⟨⟨name, v⟩, es, ⟨hname, hv⟩, hes, rfl⟩
      exact ⟨name, hname, bind_ok_iff.mpr ⟨v, hv, bind_ok_iff.mpr ⟨es, ih.mpr hes, rfl⟩⟩⟩

theorem value_list_iff {items : List Outline} {tail : ListTail} :
    value depth (.list start items tail) = .ok v ↔
      1 < depth ∧ listEnd tail = .ok () ∧ ∃ vs, v = .array vs ∧
        List.Forall₂ (fun o v => value (depth - 1) o = .ok v) items vs := by
  rw [value, bind_ok_iff]
  simp only [enter_ok_iff]
  constructor
  · rintro ⟨inner, ⟨hd, rfl⟩, h⟩
    obtain ⟨vs, hvs, h⟩ := bind_ok_iff.mp h
    obtain ⟨_, htail, h⟩ := bind_ok_iff.mp h
    exact ⟨hd, htail, vs, (Except.ok.inj h).symm, valueItems_iff.mp hvs⟩
  · rintro ⟨hd, htail, vs, rfl, hvs⟩
    exact ⟨_, ⟨hd, rfl⟩, bind_ok_iff.mpr ⟨vs, valueItems_iff.mpr hvs,
      bind_ok_iff.mpr ⟨(), htail, rfl⟩⟩⟩

theorem value_object_iff {members : List (Key × Outline)} {tail : ObjectTail} :
    value depth (.object start members tail) = .ok v ↔
      1 < depth ∧ objectEnd tail = .ok () ∧ ∃ es, v = .object es ∧
        List.Forall₂ (HasMember (depth - 1)) members es := by
  rw [value, bind_ok_iff]
  simp only [enter_ok_iff]
  constructor
  · rintro ⟨inner, ⟨hd, rfl⟩, h⟩
    obtain ⟨es, hes, h⟩ := bind_ok_iff.mp h
    obtain ⟨_, htail, h⟩ := bind_ok_iff.mp h
    exact ⟨hd, htail, es, (Except.ok.inj h).symm, valueMembers_iff.mp hes⟩
  · rintro ⟨hd, htail, es, rfl, hes⟩
    exact ⟨_, ⟨hd, rfl⟩, bind_ok_iff.mpr ⟨es, valueMembers_iff.mpr hes,
      bind_ok_iff.mpr ⟨(), htail, rfl⟩⟩⟩

theorem value_cases (h : value depth o = .ok v) :
    (∃ s start stop, o = .scalar s start stop ∧ scalar s = .ok v) ∨
    (∃ start items tail vs, o = .list start items tail ∧ v = .array vs ∧ 1 < depth ∧
      listEnd tail = .ok () ∧
      List.Forall₂ (fun o v => value (depth - 1) o = .ok v) items vs) ∨
    (∃ start members tail es, o = .object start members tail ∧ v = .object es ∧ 1 < depth ∧
      objectEnd tail = .ok () ∧ List.Forall₂ (HasMember (depth - 1)) members es) := by
  cases o with
  | scalar s start stop => exact .inl ⟨s, start, stop, rfl, h⟩
  | list start items tail =>
    obtain ⟨hd, htail, vs, hv, hvs⟩ := value_list_iff.mp h
    exact .inr (.inl ⟨start, items, tail, vs, rfl, hv, hd, htail, hvs⟩)
  | object start members tail =>
    obtain ⟨hd, htail, es, hv, hes⟩ := value_object_iff.mp h
    exact .inr (.inr ⟨start, members, tail, es, rfl, hv, hd, htail, hes⟩)
  | broken start strict loose => cases h

theorem scalar_cases {s : Scalar} (h : scalar s = .ok v) :
    (s = .null ∧ v = .null) ∨ (∃ b, s = .bool b ∧ v = .bool b) ∨
      (∃ n, s = .number (.ok n) ∧ v = .number n) ∨
      (∃ t, s = .string (.ok t) ∧ v = .string t) := by
  cases s with
  | null => exact .inl ⟨rfl, (Except.ok.inj h).symm⟩
  | bool b => exact .inr (.inl ⟨b, rfl, (Except.ok.inj h).symm⟩)
  | number read =>
    obtain ⟨n, rfl, rfl⟩ := map_ok_iff.mp h
    exact .inr (.inr (.inl ⟨n, rfl, rfl⟩))
  | string read =>
    obtain ⟨t, rfl, rfl⟩ := map_ok_iff.mp h
    exact .inr (.inr (.inr ⟨t, rfl, rfl⟩))

theorem object_cases {es : Members} (h : value depth o = .ok (.object es)) :
    ∃ start members tail, o = .object start members tail ∧ 1 < depth ∧
      objectEnd tail = .ok () ∧ List.Forall₂ (HasMember (depth - 1)) members es := by
  rcases value_cases h with ⟨s, _, _, _, hs⟩ | ⟨_, _, _, _, _, hv, _⟩ |
    ⟨start, members, tail, _, ho, hv, hd, htail, hmembers⟩
  · rcases scalar_cases hs with ⟨_, hv⟩ | ⟨_, _, hv⟩ | ⟨_, _, hv⟩ | ⟨_, _, hv⟩ <;> cases hv
  · cases hv
  · cases hv
    exact ⟨start, members, tail, ho, hd, htail, hmembers⟩

/-- What holds of whole outlines, and of lists and objects if it holds of all their parts, holds
of every outline with its value. -/
theorem value_rec (P : Nat → Outline → Value → Prop)
    (hscalar : ∀ depth s start stop v, scalar s = .ok v → P depth (.scalar s start stop) v)
    (hlist : ∀ depth start items tail vs, 1 < depth → listEnd tail = .ok () →
      List.Forall₂ (fun o v => value (depth - 1) o = .ok v ∧ P (depth - 1) o v) items vs →
      P depth (.list start items tail) (.array vs))
    (hobject : ∀ depth start members tail es, 1 < depth → objectEnd tail = .ok () →
      List.Forall₂ (fun m e => HasMember (depth - 1) m e ∧ P (depth - 1) m.2 e.2) members es →
      P depth (.object start members tail) (.object es))
    (h : value depth o = .ok v) : P depth o v := by
  have hleaf {s : Scalar} {start stop : List Char} (hs : scalar s = .ok v) :
      P depth (.scalar s start stop) v := hscalar depth s start stop v hs
  induction v using value_induction generalizing depth o with
  | null | bool | number | string =>
    rcases value_cases h with ⟨s, start, stop, rfl, hs⟩ | ⟨_, _, _, _, _, hv, _⟩ |
      ⟨_, _, _, _, _, hv, _⟩
    · exact hleaf hs
    · cases hv
    · cases hv
  | array vs ih =>
    rcases value_cases h with ⟨s, start, stop, rfl, hs⟩ | ⟨_, _, _, ws, rfl, hv, hd, htail, hws⟩ |
      ⟨_, _, _, _, _, hv, _⟩
    · exact hleaf hs
    · cases hv
      refine hlist depth _ _ _ vs hd htail (forall₂_imp_mem hws fun o v hv ho => ⟨ho, ?_⟩)
      exact ih v hv ho (hscalar _ _ _ _ _)
    · cases hv
  | object es ih =>
    rcases value_cases h with ⟨s, start, stop, rfl, hs⟩ | ⟨_, _, _, _, _, hv, _⟩ |
      ⟨_, _, _, fs, rfl, hv, hd, htail, hfs⟩
    · exact hleaf hs
    · cases hv
    · cases hv
      refine hobject depth _ _ _ es hd htail (forall₂_imp_mem hfs fun m e he hm => ⟨hm, ?_⟩)
      exact ih e he hm.2 (hscalar _ _ _ _ _)

theorem nesting_lt (h : value depth o = .ok v) (hpos : 0 < depth) : nesting v < depth := by
  refine value_rec (fun depth _ v => 0 < depth → nesting v < depth) ?scalar ?list ?object h hpos
  case scalar =>
    intro depth s start stop v hs hpos
    rcases scalar_cases hs with ⟨_, rfl⟩ | ⟨_, _, rfl⟩ | ⟨_, _, rfl⟩ | ⟨_, _, rfl⟩ <;> exact hpos
  case list =>
    intro depth start items tail vs hd htail hitems hpos
    have hle : itemNesting vs ≤ depth - 2 := itemNesting_le.mpr fun v hv => by
      obtain ⟨o, _, ho⟩ := exists_of_forall₂ hitems hv
      have := ho.2 (by omega)
      omega
    rw [nesting]
    omega
  case object =>
    intro depth start members tail es hd htail hmembers hpos
    have hle : memberNesting es ≤ depth - 2 := memberNesting_le.mpr fun e he => by
      obtain ⟨m, _, hm⟩ := exists_of_forall₂ hmembers he
      have := hm.2 (by omega)
      omega
    rw [nesting]
    omega

/-- How much room there is for nesting does not matter, as long as it suffices. -/
theorem value_of_nesting {more : Nat} (h : value depth o = .ok v) (hlt : nesting v < more) :
    value more o = .ok v := by
  refine value_rec (fun _ o v => ∀ more > nesting v, value more o = .ok v) ?scalar ?list ?object
    h more hlt
  case scalar => exact fun depth s start stop v hs more _ => hs
  case list =>
    intro depth start items tail vs _ htail hitems more hlt
    rw [nesting] at hlt
    refine value_list_iff.mpr ⟨by omega, htail, vs, rfl, forall₂_imp_mem hitems fun o v hv h => ?_⟩
    have hle := itemNesting_le.mp (Nat.le_refl _) v hv
    exact h.2 _ (by omega)
  case object =>
    intro depth start members tail es _ htail hmembers more hlt
    rw [nesting] at hlt
    refine value_object_iff.mpr ⟨by omega, htail, es, rfl,
      forall₂_imp_mem hmembers fun m e he h => ⟨h.1.1, ?_⟩⟩
    have hle := memberNesting_le.mp (Nat.le_refl _) e he
    exact h.2 _ (by omega)

theorem value_unique {depth' : Nat} {w : Value} (h : value depth o = .ok v)
    (h' : value depth' o = .ok w) : v = w := by
  have hv := value_of_nesting h (show nesting v < nesting v + nesting w + 1 by omega)
  have hw := value_of_nesting h' (show nesting w < nesting v + nesting w + 1 by omega)
  exact Except.ok.inj (hv.symm.trans hw)

theorem listSkipped_of_end {tail : ListTail} (h : listEnd tail = .ok ()) :
    listSkipped tail = .ok () := by
  cases tail with
  | danglingComma rest => cases h
  | _ => exact h

theorem objectSkipped_of_end {tail : ObjectTail} (h : objectEnd tail = .ok ()) :
    objectSkipped tail = .ok () := by
  cases tail with
  | closed stop => rfl
  | cut => rfl
  | noColon key rest =>
    obtain ⟨_, _, h⟩ := bind_ok_iff.mp h
    cases h
  | endAfterKey key =>
    obtain ⟨_, _, h⟩ := bind_ok_iff.mp h
    cases h
  | _ => cases h

theorem skipItems_ok {os : List Outline} (h : ∀ o ∈ os, skip o = .ok ()) :
    skipItems os = .ok () := by
  induction os with
  | nil => rfl
  | cons o os ih =>
    obtain ⟨ho, hos⟩ := List.forall_mem_cons.mp h
    rw [skipItems, ho]
    exact ih hos

theorem skipMembers_ok {ms : List (Key × Outline)} (h : ∀ m ∈ ms, skip m.2 = .ok ()) :
    skipMembers ms = .ok () := by
  induction ms with
  | nil => rfl
  | cons m ms ih =>
    obtain ⟨hm, hms⟩ := List.forall_mem_cons.mp h
    rw [skipMembers, hm]
    exact ih hms

/-- What has a value can be skipped. -/
theorem skip_of_value (h : value depth o = .ok v) : skip o = .ok () := by
  refine value_rec (fun _ o _ => skip o = .ok ()) ?scalar ?list ?object h
  case scalar => exact fun depth s start stop v hs => rfl
  case list =>
    intro depth start items tail vs hd htail hitems
    have hskipped := skipItems_ok fun o ho => by
      obtain ⟨v, _, hov⟩ := exists_of_forall₂ hitems.flip ho
      exact hov.2
    rw [skip, hskipped]
    exact listSkipped_of_end htail
  case object =>
    intro depth start members tail es hd htail hmembers
    have hskipped := skipMembers_ok fun m hm => by
      obtain ⟨e, _, hem⟩ := exists_of_forall₂ hmembers.flip hm
      exact hem.2
    rw [skip, hskipped]
    exact objectSkipped_of_end htail

/-- A reader of outlines makes of them what another one makes of their values. -/
def Follows {ε α : Type} (decode : Nat → Outline → Except ε α) (read : Value → Option α) : Prop :=
  ∀ {depth : Nat} {o : Outline} {v : Value}, value depth o = .ok v → Distinct v →
    (decode depth o).toOption = read v

def boolOf? : Value → Option Bool
  | .bool b => some b
  | _ => none

def stringOf? : Value → Option String
  | .string s => some s
  | _ => none

/-- Nothing for `null`, and else what a value reads as. -/
def nullableOf? {α : Type} (read : Value → Option α) : Value → Option (Option α)
  | .null => some none
  | v => (read v).map some

def itemsOf? {α : Type} (read : Value → Option α) : Value → Option (List α)
  | .array vs => vs.mapM read
  | _ => none

def membersOf? {α : Type} (read : Value → Option α) : Value → Option (List (String × α))
  | .object es => es.mapM fun e => (read e.2).map fun a => (e.1, a)
  | _ => none

/-- A reader of outlines that reads whole values only, and makes of them what another one makes of
their values. -/
def Exact {ε α : Type} (decode : Nat → Outline → Except ε α) (read : Value → Option α) : Prop :=
  ∀ depth o, (decode depth o).toOption = (value depth o).toOption.bind read

variable {ε α : Type} {decode : Nat → Outline → Except ε α} {read : Value → Option α}

theorem Exact.follows (h : Exact decode read) : Follows decode read := by
  intro depth o v hv _
  rw [h, hv]
  rfl

theorem bind_list (h : ∀ vs, read (.array vs) = none) {items : List Outline} {tail : ListTail} :
    (value depth (.list start items tail)).toOption.bind read = none := by
  cases hv : value depth (.list start items tail) with
  | error fault => rfl
  | ok v =>
    obtain ⟨_, _, vs, rfl, _⟩ := value_list_iff.mp hv
    exact h vs

theorem bind_object (h : ∀ es, read (.object es) = none) {members : List (Key × Outline)}
    {tail : ObjectTail} : (value depth (.object start members tail)).toOption.bind read = none := by
  cases hv : value depth (.object start members tail) with
  | error fault => rfl
  | ok v =>
    obtain ⟨_, _, es, rfl, _⟩ := value_object_iff.mp hv
    exact h es

theorem exact_bool : Exact (fun _ => Decode.bool) boolOf? := by
  intro depth o
  cases o with
  | scalar s start stop =>
    cases s with
    | null | bool => rfl
    | number read => cases read <;> rfl
    | string read => cases read <;> rfl
  | list => exact (bind_list fun _ => rfl).symm
  | object => exact (bind_object fun _ => rfl).symm
  | broken => rfl

theorem exact_string : Exact (fun _ => string) stringOf? := by
  intro depth o
  cases o with
  | scalar s start stop =>
    cases s with
    | null | bool => rfl
    | number read => cases read <;> rfl
    | string read => cases read <;> rfl
  | list => exact (bind_list fun _ => rfl).symm
  | object => exact (bind_object fun _ => rfl).symm
  | broken => rfl

theorem follows_string : Follows (fun _ => string) stringOf? := exact_string.follows

theorem nullableOf?_of_ne (h : v ≠ .null) : nullableOf? read v = (read v).map some := by
  cases v with
  | null => exact absurd rfl h
  | _ => rfl

theorem nullable_cases {ε α : Type} (o : Outline) :
    (∃ start stop, o = .scalar .null start stop) ∨
      (∀ depth, value depth o ≠ .ok .null) ∧
        ∀ decode : Outline → Except ε α, nullable decode o = some <$> decode o := by
  cases o with
  | scalar s start stop =>
    cases s with
    | null => exact .inl ⟨start, stop, rfl⟩
    | bool b => exact .inr ⟨fun _ h => (nomatch h), fun _ => rfl⟩
    | number read =>
      refine .inr ⟨fun _ h => ?_, fun _ => rfl⟩
      obtain ⟨_, _, hv⟩ := map_ok_iff.mp h
      cases hv
    | string read =>
      refine .inr ⟨fun _ h => ?_, fun _ => rfl⟩
      obtain ⟨_, _, hv⟩ := map_ok_iff.mp h
      cases hv
  | list start items tail =>
    refine .inr ⟨fun _ h => ?_, fun _ => rfl⟩
    obtain ⟨_, _, _, hv, _⟩ := value_list_iff.mp h
    cases hv
  | object start members tail =>
    refine .inr ⟨fun _ h => ?_, fun _ => rfl⟩
    obtain ⟨_, _, _, hv, _⟩ := value_object_iff.mp h
    cases hv
  | broken start strict loose => exact .inr ⟨fun _ h => (nomatch h), fun _ => rfl⟩

theorem Exact.nullable (hread : Exact decode read) :
    Exact (fun depth => nullable (decode depth)) (nullableOf? read) := by
  intro depth o
  rcases nullable_cases (ε := ε) (α := α) o with ⟨start, stop, rfl⟩ | ⟨hnull, hread'⟩
  · rfl
  · dsimp only
    rw [hread', toOption_map, hread]
    cases hv : value depth o with
    | error fault => rfl
    | ok v => exact (nullableOf?_of_ne fun h => hnull depth (h ▸ hv)).symm

theorem Follows.nullable (hread : Follows decode read) :
    Follows (fun depth => nullable (decode depth)) (nullableOf? read) := by
  intro depth o v h hv
  rcases nullable_cases (ε := ε) (α := α) o with ⟨start, stop, rfl⟩ | ⟨hnull, hread'⟩
  · cases h
    rfl
  · dsimp only
    rw [hread', toOption_map, hread h hv]
    exact (nullableOf?_of_ne fun hv => hnull depth (hv ▸ h)).symm

theorem mapM_items {decode : Nat → Outline → Except Fault α} (hread : Exact decode read)
    (os : List Outline) :
    (os.mapM (decode depth)).toOption = (valueItems depth os).toOption.bind (·.mapM read) := by
  induction os with
  | nil => rfl
  | cons o os ih =>
    rw [List.mapM_cons, valueItems, toOption_bind, toOption_bind, hread]
    cases value depth o with
    | error fault => rfl
    | ok v =>
      simp only [toOption_bind, ih]
      cases valueItems depth os with
      | error fault => cases hv : read v <;> simp [Except.toOption, hv]
      | ok vs => simp [Except.toOption, List.mapM_cons, pure, Except.pure]

theorem Exact.listOf {decode : Nat → Outline → Except Fault α} (hread : Exact decode read) :
    Exact (listOf decode) (itemsOf? read) := by
  intro depth o
  cases o with
  | scalar s start stop =>
    cases s with
    | null | bool => rfl
    | number read => cases read <;> rfl
    | string read => cases read <;> rfl
  | list start items tail =>
    rw [Decode.listOf, value]
    cases enter depth start with
    | error fault => rfl
    | ok inner =>
      change (items.mapM (decode inner) >>= fun as => listEnd tail >>= fun _ =>
        pure as).toOption = (valueItems inner items >>= fun vs => listEnd tail >>= fun _ =>
          pure (Value.array vs)).toOption.bind (itemsOf? read)
      rw [toOption_bind, mapM_items hread, toOption_bind]
      cases valueItems inner items with
      | error fault => rfl
      | ok vs =>
        cases listEnd tail with
        | error fault => exact Option.bind_fun_none _
        | ok _ => exact Option.bind_fun_some _
  | object => exact (bind_object fun _ => rfl).symm
  | broken => rfl

theorem Follows.mapOf {decode : Nat → Outline → Except Fault α} (hread : Follows decode read) :
    Follows (mapOf decode) (membersOf? read) := by
  intro depth o v h hv
  rcases value_cases h with ⟨s, start, stop, rfl, hs⟩ | ⟨_, _, _, _, rfl, rfl, _⟩ |
    ⟨start, members, tail, es, rfl, rfl, hd, htail, hmembers⟩
  · rcases scalar_cases hs with ⟨rfl, rfl⟩ | ⟨_, rfl, rfl⟩ | ⟨_, rfl, rfl⟩ | ⟨_, rfl, rfl⟩ <;> rfl
  · rfl
  · have hdistinct : ∀ e ∈ es, Distinct e.2 := distinctMembers_iff.mp hv.2
    have hone : ∀ m, ∀ e ∈ es, HasMember (depth - 1) m e →
        (do return (← m.1.name, ← decode (depth - 1) m.2) : Except Fault (String × α)).toOption =
          (read e.2).map fun a => (e.1, a) := by
      intro m e he hm
      rw [hm.1, ← hread hm.2 (hdistinct e he)]
      cases decode (depth - 1) m.2 <;> rfl
    have heach := toOption_mapM (forall₂_imp_mem hmembers hone)
    rw [membersOf?, ← heach, Decode.mapOf, enter_ok_iff.mpr ⟨hd, rfl⟩, htail]
    change ((members.mapM fun m : Key × Outline =>
      (do return (← m.1.name, ← decode (depth - 1) m.2) : Except Fault (String × α))) >>=
        pure).toOption = _
    rw [bind_pure]

theorem mapM_members {decode : Nat → Outline → Except Fault α} {f : Value → α}
    (hdecode : ∀ depth o, decode depth o = f <$> value depth o) (ms : List (Key × Outline)) :
    (ms.mapM fun m => do
      let name ← m.1.name
      return (name, ← decode depth m.2)) =
      List.map (fun e => (e.1, f e.2)) <$> valueMembers depth ms := by
  induction ms with
  | nil => rfl
  | cons m ms ih =>
    obtain ⟨key, o⟩ := m
    rw [List.mapM_cons, ih, hdecode, valueMembers]
    dsimp only
    cases key.name with
    | error fault => rfl
    | ok name =>
      cases value depth o with
      | error fault => rfl
      | ok v => cases valueMembers depth ms <;> rfl

/-- A map of converted values is read from an object only, member by member. -/
theorem mapOf_ok_iff {decode : Nat → Outline → Except Fault α} {f : Value → α}
    (hdecode : ∀ depth o, decode depth o = f <$> value depth o) {as : List (String × α)} :
    mapOf decode depth o = .ok as ↔
      ∃ es, value depth o = .ok (.object es) ∧ es.map (fun e => (e.1, f e.2)) = as := by
  cases o with
  | object start ms tail =>
    have hread : mapOf decode depth (.object start ms tail) =
        enter depth start >>= fun inner =>
          (List.map (fun e => (e.1, f e.2)) <$> valueMembers inner ms) >>= fun as =>
            objectEnd tail >>= fun _ => pure as := by
      simp only [← mapM_members hdecode]
      rfl
    rw [hread, value]
    constructor
    · intro h
      obtain ⟨inner, hinner, h⟩ := bind_ok_iff.mp h
      obtain ⟨_, has, h⟩ := bind_ok_iff.mp h
      obtain ⟨es, hes, rfl⟩ := map_ok_iff.mp has
      obtain ⟨_, htail, h⟩ := bind_ok_iff.mp h
      cases h
      exact ⟨es, bind_ok_iff.mpr ⟨inner, hinner, bind_ok_iff.mpr ⟨es, hes,
        bind_ok_iff.mpr ⟨_, htail, rfl⟩⟩⟩, rfl⟩
    · rintro ⟨es, h, rfl⟩
      obtain ⟨inner, hinner, h⟩ := bind_ok_iff.mp h
      obtain ⟨es, hes, h⟩ := bind_ok_iff.mp h
      obtain ⟨_, htail, h⟩ := bind_ok_iff.mp h
      cases h
      exact bind_ok_iff.mpr ⟨inner, hinner, bind_ok_iff.mpr ⟨_, map_ok_iff.mpr ⟨es, hes, rfl⟩,
        bind_ok_iff.mpr ⟨_, htail, rfl⟩⟩⟩
  | scalar s start stop =>
    refine ⟨fun h => (nomatch h), fun ⟨es, h, _⟩ => ?_⟩
    obtain ⟨_, _, _, ho, _⟩ := object_cases h
    cases ho
  | list start items tail =>
    refine ⟨fun h => (nomatch h), fun ⟨es, h, _⟩ => ?_⟩
    obtain ⟨_, _, _, ho, _⟩ := object_cases h
    cases ho
  | broken start strict loose => exact ⟨fun h => (nomatch h), fun ⟨es, h, _⟩ => nomatch h⟩

theorem exact_mapOf {decode : Nat → Outline → Except Fault α} {f : Value → α}
    (hdecode : ∀ depth o, decode depth o = f <$> value depth o) :
    Exact (mapOf decode) (membersOf? fun v => some (f v)) := by
  intro depth o
  refine Option.ext fun as => ?_
  have hmembers (es : Members) : membersOf? (fun v => some (f v)) (.object es) =
      some (es.map fun e => (e.1, f e.2)) := List.mapM_pure
  rw [toOption_eq_some_iff, mapOf_ok_iff hdecode, Option.bind_eq_some_iff]
  constructor
  · rintro ⟨es, hes, rfl⟩
    exact ⟨_, toOption_eq_some_iff.mpr hes, hmembers es⟩
  · rintro ⟨v, hv, has⟩
    cases v with
    | object es =>
      exact ⟨es, toOption_eq_some_iff.mp hv, Option.some.inj ((hmembers es).symm.trans has)⟩
    | _ => cases has

theorem whole_ok_iff {decode : Nat → Outline → Except Fault α} {source : String} {a : α} :
    whole decode source = .ok a ↔ decode depthLimit (Outline.read source.toList) = .ok a ∧
      skipBlank (Outline.read source.toList).stop = [] := by
  unfold whole
  dsimp only
  rw [mapError_ok_iff, bind_ok_iff]
  constructor
  · rintro ⟨b, hb, h⟩
    split at h
    · next hstop =>
      cases h
      exact ⟨hb, hstop⟩
    · cases h
  · rintro ⟨ha, hstop⟩
    exact ⟨a, ha, by rw [hstop]; rfl⟩

theorem toOption_whole {decode : Nat → Outline → Except Fault α} {source : String}
    (h : skipBlank (Outline.read source.toList).stop = []) :
    (whole decode source).toOption =
      (decode depthLimit (Outline.read source.toList)).toOption := by
  refine Option.ext fun a => ?_
  rw [toOption_eq_some_iff, whole_ok_iff, toOption_eq_some_iff]
  simp [h]

theorem Follows.whole {decode : Nat → Outline → Except Fault α} (hread : Follows decode read)
    {source : String} (h : Value.parse source = .ok v) (hv : Distinct v) :
    (whole decode source).toOption = read v := by
  obtain ⟨hvalue, hstop⟩ := whole_ok_iff.mp h
  rw [toOption_whole hstop, hread hvalue hv]

end Screenwright.Proofs.Values
