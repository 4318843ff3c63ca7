import Mathlib.Data.String.Basic
import Mathlib.Data.List.Nodup
import Screenwright.Json.Value
import Screenwright.Keyed

namespace Screenwright.Proofs.Canonical
open Json Value

abbrev Members := List (String × Value)

mutual

/-- What holds of every value whose parts it holds of holds of all values. -/
@[elab_as_elim]
theorem value_induction {P : Value → Prop} (null : P .null) (bool : ∀ b, P (.bool b))
    (number : ∀ n, P (.number n)) (string : ∀ s, P (.string s))
    (array : ∀ items, (∀ v ∈ items, P v) → P (.array items))
    (object : ∀ members : Members, (∀ e ∈ members, P e.2) → P (.object members)) :
    ∀ v, P v
  | .null => null
  | .bool b => bool b
  | .number n => number n
  | .string s => string s
  | .array items =>
    array items (items_induction null bool number string array object items)
  | .object members =>
    object members (members_induction null bool number string array object members)

theorem items_induction {P : Value → Prop} (null : P .null) (bool : ∀ b, P (.bool b))
    (number : ∀ n, P (.number n)) (string : ∀ s, P (.string s))
    (array : ∀ items, (∀ v ∈ items, P v) → P (.array items))
    (object : ∀ members : Members, (∀ e ∈ members, P e.2) → P (.object members)) :
    ∀ items : List Value, ∀ v ∈ items, P v
  | [] => fun _ h => nomatch h
  | v :: vs => List.forall_mem_cons.mpr
    ⟨value_induction null bool number string array object v,
      items_induction null bool number string array object vs⟩

theorem members_induction {P : Value → Prop} (null : P .null) (bool : ∀ b, P (.bool b))
    (number : ∀ n, P (.number n)) (string : ∀ s, P (.string s))
    (array : ∀ items, (∀ v ∈ items, P v) → P (.array items))
    (object : ∀ members : Members, (∀ e ∈ members, P e.2) → P (.object members)) :
    ∀ members : Members, ∀ e ∈ members, P e.2
  | [] => fun _ h => nomatch h
  | (_, v) :: ms => List.forall_mem_cons.mpr
    ⟨value_induction null bool number string array object v,
      members_induction null bool number string array object ms⟩

end

mutual

def same : Value → Value → Bool
  | .null, .null => true
  | .bool a, .bool b => a = b
  | .number a, .number b => a = b
  | .string a, .string b => a = b
  | .array vs, .array ws => sameItems vs ws
  | .object es, .object fs => sameMembers es fs
  | _, _ => false

def sameItems : List Value → List Value → Bool
  | [], [] => true
  | v :: vs, w :: ws => same v w && sameItems vs ws
  | _, _ => false

def sameMembers : Members → Members → Bool
  | [], [] => true
  | (k, v) :: es, (l, w) :: fs => k = l && same v w && sameMembers es fs
  | _, _ => false

end

theorem sameItems_iff {vs ws : List Value} (h : ∀ v ∈ vs, ∀ w, same v w = true ↔ v = w) :
    sameItems vs ws = true ↔ vs = ws := by
  induction vs generalizing ws with
  | nil => cases ws <;> simp [sameItems]
  | cons v vs ih =>
    obtain ⟨hv, hvs⟩ := List.forall_mem_cons.mp h
    cases ws with
    | nil => simp [sameItems]
    | cons w ws => simp [sameItems, hv, ih hvs]

theorem sameMembers_iff {es fs : Members} (h : ∀ e ∈ es, ∀ w, same e.2 w = true ↔ e.2 = w) :
    sameMembers es fs = true ↔ es = fs := by
  induction es generalizing fs with
  | nil => cases fs <;> simp [sameMembers]
  | cons e es ih =>
    obtain ⟨he, hes⟩ := List.forall_mem_cons.mp h
    cases fs with
    | nil => simp [sameMembers]
    | cons f fs => simp [sameMembers, he, ih hes, Prod.ext_iff]

theorem same_iff (v w : Value) : same v w = true ↔ v = w := by
  induction v using value_induction generalizing w with
  | null | bool | number | string => cases w <;> simp [same]
  | array vs ih =>
    cases w with
    | array ws => simp [same, sameItems_iff ih]
    | _ => simp [same]
  | object es ih =>
    cases w with
    | object fs => simp [same, sameMembers_iff ih]
    | _ => simp [same]

instance : DecidableEq Value := fun v w => decidable_of_iff _ (same_iff v w)

mutual

/-- No object in a value has a key twice. -/
def Distinct : Value → Prop
  | .array items => DistinctItems items
  | .object members => (members.map Prod.fst).Nodup ∧ DistinctMembers members
  | _ => True

def DistinctItems : List Value → Prop
  | [] => True
  | v :: vs => Distinct v ∧ DistinctItems vs

def DistinctMembers : Members → Prop
  | [] => True
  | (_, v) :: ms => Distinct v ∧ DistinctMembers ms

end

mutual

def numbers : Value → List Number
  | .number n => [n]
  | .array items => itemNumbers items
  | .object members => memberNumbers members
  | _ => []

def itemNumbers : List Value → List Number
  | [] => []
  | v :: vs => numbers v ++ itemNumbers vs

def memberNumbers : Members → List Number
  | [] => []
  | (_, v) :: ms => numbers v ++ memberNumbers ms

end

mutual

/-- How many lists and objects are around the innermost value, with that value if it is one. -/
def nesting : Value → Nat
  | .array items => itemNesting items + 1
  | .object members => memberNesting members + 1
  | _ => 0

def itemNesting : List Value → Nat
  | [] => 0
  | v :: vs => max (nesting v) (itemNesting vs)

def memberNesting : Members → Nat
  | [] => 0
  | (_, v) :: ms => max (nesting v) (memberNesting ms)

end

theorem distinctItems_iff {vs : List Value} : DistinctItems vs ↔ ∀ v ∈ vs, Distinct v := by
  induction vs with
  | nil => simp [DistinctItems]
  | cons v vs ih => simp [DistinctItems, ih]

theorem distinctMembers_iff {ms : Members} : DistinctMembers ms ↔ ∀ e ∈ ms, Distinct e.2 := by
  induction ms with
  | nil => simp [DistinctMembers]
  | cons e ms ih => simp [DistinctMembers, ih]

theorem mem_itemNumbers {vs : List Value} {n : Number} :
    n ∈ itemNumbers vs ↔ ∃ v ∈ vs, n ∈ numbers v := by
  induction vs with
  | nil => simp [itemNumbers]
  | cons v vs ih => simp [itemNumbers, ih]

theorem mem_memberNumbers {ms : Members} {n : Number} :
    n ∈ memberNumbers ms ↔ ∃ e ∈ ms, n ∈ numbers e.2 := by
  induction ms with
  | nil => simp [memberNumbers]
  | cons e ms ih => simp [memberNumbers, ih]

theorem itemNesting_le {vs : List Value} {d : Nat} :
    itemNesting vs ≤ d ↔ ∀ v ∈ vs, nesting v ≤ d := by
  induction vs with
  | nil => simp [itemNesting]
  | cons v vs ih => simp [itemNesting, ih]

theorem memberNesting_le {ms : Members} {d : Nat} :
    memberNesting ms ≤ d ↔ ∀ e ∈ ms, nesting e.2 ≤ d := by
  induction ms with
  | nil => simp [memberNesting]
  | cons e ms ih => simp [memberNesting, ih]

theorem canonicalItems_eq (vs : List Value) : canonicalItems vs = vs.map canonical := by
  induction vs with
  | nil => rfl
  | cons v vs ih => rw [canonicalItems, ih, List.map_cons]

def canonicalMember (e : String × Value) : String × Value := (e.1, e.2.canonical)

theorem insertSorted_perm (key : String) (v : Value) (ms : Members) :
    (insertSorted key v ms).Perm ((key, v) :: ms) := by
  induction ms with
  | nil => exact .refl _
  | cons e ms ih =>
    obtain ⟨k, w⟩ := e
    unfold insertSorted
    split
    · exact (ih.cons (k, w)).trans (.swap _ _ _)
    · exact .refl _

/-- Where no key comes twice, every member stays, with its value in canonical form. -/
theorem canonicalMembers_perm {ms : Members} (h : (ms.map Prod.fst).Nodup) :
    (canonicalMembers ms).Perm (ms.map canonicalMember) := by
  induction ms with
  | nil => exact .refl _
  | cons e ms ih =>
    obtain ⟨k, v⟩ := e
    obtain ⟨hk, hms⟩ := List.nodup_cons.mp h
    have hrest := ih hms
    have hnew : (canonicalMembers ms).any (·.1 = k) = false := by
      rw [List.any_eq_false]
      intro e he hek
      obtain ⟨f, hf, rfl⟩ := List.mem_map.mp (hrest.mem_iff.mp he)
      exact hk (List.mem_map.mpr ⟨f, hf, of_decide_eq_true hek⟩)
    simp only [canonicalMembers, hnew, List.map_cons]
    exact (insertSorted_perm _ _ _).trans (hrest.cons _)

theorem mem_canonicalMembers {ms : Members} {e : String × Value} (h : e ∈ canonicalMembers ms) :
    ∃ f ∈ ms, canonicalMember f = e := by
  induction ms with
  | nil => cases h
  | cons f ms ih =>
    obtain ⟨k, v⟩ := f
    have hrest (h : e ∈ canonicalMembers ms) : ∃ f ∈ (k, v) :: ms, canonicalMember f = e := by
      obtain ⟨f, hf, he⟩ := ih h
      exact ⟨f, List.mem_cons_of_mem _ hf, he⟩
    simp only [canonicalMembers] at h
    split at h
    · exact hrest h
    · rcases List.mem_cons.mp ((insertSorted_perm _ _ _).mem_iff.mp h) with rfl | h
      · exact ⟨_, List.mem_cons_self, rfl⟩
      · exact hrest h

def Ordered (ms : Members) : Prop := ms.Pairwise fun e f => e.1 < f.1

theorem ordered_insertSorted {key : String} {v : Value} {ms : Members} (h : Ordered ms)
    (hnew : ∀ e ∈ ms, e.1 ≠ key) : Ordered (insertSorted key v ms) := by
  induction ms with
  | nil => simp [insertSorted, Ordered]
  | cons e ms ih =>
    obtain ⟨k, w⟩ := e
    obtain ⟨hhead, htail⟩ := List.pairwise_cons.mp h
    obtain ⟨hk, hms⟩ := List.forall_mem_cons.mp hnew
    unfold insertSorted
    split
    · next hlt =>
      refine List.pairwise_cons.mpr ⟨fun f hf => ?_, ih htail hms⟩
      rcases List.mem_cons.mp ((insertSorted_perm _ _ _).mem_iff.mp hf) with rfl | hf
      · exact hlt
      · exact hhead f hf
    · next hle =>
      have hlt : key < k := lt_of_le_of_ne (not_lt.mp hle) (Ne.symm hk)
      exact List.pairwise_cons.mpr ⟨List.forall_mem_cons.mpr
        ⟨hlt, fun f hf => hlt.trans (hhead f hf)⟩, h⟩

theorem ordered_canonicalMembers (ms : Members) : Ordered (canonicalMembers ms) := by
  induction ms with
  | nil => exact .nil
  | cons e ms ih =>
    obtain ⟨k, v⟩ := e
    simp only [canonicalMembers]
    split
    · exact ih
    · next hnew =>
      refine ordered_insertSorted ih fun e he hk => hnew ?_
      exact List.any_eq_true.mpr ⟨e, he, by simpa using hk⟩

/-- Members that are in order, and whose values are canonical, stay as they are. -/
theorem canonicalMembers_of_ordered {ms : Members} (h : Ordered ms)
    (hv : ∀ e ∈ ms, e.2.canonical = e.2) : canonicalMembers ms = ms := by
  induction ms with
  | nil => rfl
  | cons e ms ih =>
    obtain ⟨k, v⟩ := e
    obtain ⟨hhead, htail⟩ := List.pairwise_cons.mp h
    obtain ⟨hfirst, hrest⟩ := List.forall_mem_cons.mp hv
    have hnew : ms.any (·.1 = k) = false := by
      rw [List.any_eq_false]
      intro f hf hk
      exact absurd (of_decide_eq_true hk) (ne_of_gt (hhead f hf))
    simp only [canonicalMembers, ih htail hrest, hnew, hfirst]
    cases ms with
    | nil => rfl
    | cons f ms => exact if_neg (not_lt.mpr (le_of_lt (hhead f List.mem_cons_self)))

theorem canonical_canonical (v : Value) : v.canonical.canonical = v.canonical := by
  induction v using value_induction with
  | null | bool | number | string => rfl
  | array items ih =>
    simp only [canonical, canonicalItems_eq, List.map_map, Value.array.injEq]
    exact List.map_congr_left ih
  | object members ih =>
    simp only [canonical, Value.object.injEq]
    refine canonicalMembers_of_ordered (ordered_canonicalMembers members) fun e he => ?_
    obtain ⟨f, hf, rfl⟩ := mem_canonicalMembers he
    exact ih f hf

theorem Ordered.nodup {ms : Members} (h : Ordered ms) : (ms.map Prod.fst).Nodup :=
  List.pairwise_map.mpr (h.imp fun hlt => ne_of_lt hlt)

theorem distinct_canonical (v : Value) : Distinct v.canonical := by
  induction v using value_induction with
  | null | bool | number | string => trivial
  | array items ih =>
    simp only [canonical, canonicalItems_eq, Distinct, distinctItems_iff, List.forall_mem_map]
    exact ih
  | object members ih =>
    refine ⟨(ordered_canonicalMembers members).nodup, distinctMembers_iff.mpr fun e he => ?_⟩
    obtain ⟨f, hf, rfl⟩ := mem_canonicalMembers he
    exact ih f hf

theorem numbers_canonical {v : Value} {n : Number} (h : n ∈ numbers v.canonical) :
    n ∈ numbers v := by
  induction v using value_induction with
  | null | bool | number | string => exact h
  | array items ih =>
    simp only [canonical, canonicalItems_eq, numbers, mem_itemNumbers, List.mem_map] at h ⊢
    obtain ⟨_, ⟨v, hv, rfl⟩, hn⟩ := h
    exact ⟨v, hv, ih v hv hn⟩
  | object members ih =>
    simp only [canonical, numbers, mem_memberNumbers] at h ⊢
    obtain ⟨_, he, hn⟩ := h
    obtain ⟨f, hf, rfl⟩ := mem_canonicalMembers he
    exact ⟨f, hf, ih f hf hn⟩

theorem nesting_canonical (v : Value) : nesting v.canonical ≤ nesting v := by
  induction v using value_induction with
  | null | bool | number | string => exact Nat.le_refl _
  | array items ih =>
    simp only [canonical, canonicalItems_eq, nesting, Nat.add_le_add_iff_right, itemNesting_le]
    intro w hw
    obtain ⟨v, hv, rfl⟩ := List.mem_map.mp hw
    exact (ih v hv).trans (itemNesting_le.mp (Nat.le_refl _) v hv)
  | object members ih =>
    simp only [canonical, nesting, Nat.add_le_add_iff_right, memberNesting_le]
    intro e he
    obtain ⟨f, hf, rfl⟩ := mem_canonicalMembers he
    exact (ih f hf).trans (memberNesting_le.mp (Nat.le_refl _) f hf)

def memberAt {α : Type} (ms : List (String × α)) (key : String) : Option α :=
  (ms.find? (·.1 = key)).map Prod.snd

theorem memberAt_eq_some_iff {α : Type} {ms : List (String × α)} (h : (ms.map Prod.fst).Nodup)
    {key : String} {a : α} : memberAt ms key = some a ↔ (key, a) ∈ ms := by
  rw [memberAt, Option.map_eq_some_iff]
  simp [Keyed.find?_eq_some_iff h]

/-- Where no key comes twice, sorting changes no look-up. -/
theorem memberAt_canonicalMembers {ms : Members} (h : (ms.map Prod.fst).Nodup) (key : String) :
    memberAt (canonicalMembers ms) key = (memberAt ms key).map canonical := by
  have hkeys := (ordered_canonicalMembers ms).nodup
  refine Option.ext fun w => ?_
  rw [memberAt_eq_some_iff hkeys, (canonicalMembers_perm h).mem_iff, List.mem_map,
    Option.map_eq_some_iff]
  constructor
  · rintro ⟨⟨k, v⟩, he, hw⟩
    obtain ⟨rfl, rfl⟩ := Prod.mk.inj hw
    exact ⟨v, (memberAt_eq_some_iff h).mpr he, rfl⟩
  · rintro ⟨v, hv, rfl⟩
    exact ⟨(key, v), (memberAt_eq_some_iff h).mp hv, rfl⟩

end Screenwright.Proofs.Canonical
