import Screenwright.Keyed

namespace Screenwright

/-- Values under pairwise distinct keys, in the order in which the keys first came. -/
structure Catalog (α : Type u) where
  entries : List (String × α)
  nodup : (entries.map Prod.fst).Nodup

namespace Catalog

def empty : Catalog α := ⟨[], by simp⟩

instance : EmptyCollection (Catalog α) := ⟨empty⟩

instance : Inhabited (Catalog α) := ⟨empty⟩

def keys (c : Catalog α) : List String := c.entries.map Prod.fst

def size (c : Catalog α) : Nat := c.entries.length

def isEmpty (c : Catalog α) : Bool := c.entries.isEmpty

def get? (c : Catalog α) (key : String) : Option α :=
  (c.entries.find? (·.1 = key)).map Prod.snd

/-- A new key goes to the end, a known one stays where it is. -/
def insert (c : Catalog α) (key : String) (value : α) : Catalog α :=
  ⟨Keyed.put Prod.fst (key, value) c.entries, Keyed.nodup_put c.nodup⟩

def ofList (pairs : List (String × α)) : Catalog α :=
  pairs.foldl (fun c e => c.insert e.1 e.2) empty

theorem ext {c c' : Catalog α} (h : c.entries = c'.entries) : c = c' := by
  cases c
  cases c'
  exact Catalog.mk.injEq .. |>.mpr h

theorem entries_ofList (pairs : List (String × α)) :
    (ofList pairs).entries = pairs.foldl (fun es e => Keyed.put Prod.fst e es) [] :=
  (List.foldl_hom entries fun _ _ => rfl).symm

theorem ofList_entries (c : Catalog α) : ofList c.entries = c := by
  refine ext ?_
  rw [entries_ofList, Keyed.foldl_put_of_nodup (by simpa using c.nodup), List.nil_append]

/-- Of equal keys the last one counts. -/
theorem get?_ofList (pairs : List (String × α)) (key : String) :
    (ofList pairs).get? key = (pairs.reverse.find? (·.1 = key)).map Prod.snd := by
  rw [get?, entries_ofList, Keyed.find?_foldl_put, List.find?_nil, Option.or_none]

def filter (c : Catalog α) (keep : String × α → Bool) : Catalog α :=
  ⟨c.entries.filter keep, c.nodup.sublist (List.filter_sublist.map Prod.fst)⟩

theorem get?_filter (c : Catalog α) (keep : String × α → Bool) (key : String) :
    (c.filter keep).get? key = (c.get? key).filter fun value => keep (key, value) := by
  unfold get?
  rw [filter, Keyed.find?_filter_key c.nodup]
  cases hf : c.entries.find? (·.1 = key) with
  | none => rfl
  | some e =>
    have he : e.1 = key := by simpa using List.find?_some hf
    subst he
    cases hk : keep e <;> simp [hk, Option.filter]

end Catalog
end Screenwright
