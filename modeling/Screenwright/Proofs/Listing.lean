import Mathlib.Data.List.Sort
import Screenwright.Proofs.Entries

namespace Screenwright.Proofs.Listing
open Files FileSystem Entries

/-- Chains of names are in order if the second goes on where the first ends, or if its name is
greater where they part. -/
theorem lt_iff {names others : Location} :
    names < others ↔ (∃ more ≠ [], others = names ++ more) ∨
      ∃ front m n ms ns, names = front ++ m :: ms ∧ others = front ++ n :: ns ∧ m < n := by
  induction names generalizing others with
  | nil =>
    cases others with
    | nil => simp
    | cons n ns => simp
  | cons m ms ih =>
    cases others with
    | nil => simp
    | cons n ns =>
      rw [List.cons_lt_cons_iff, ih]
      constructor
      · rintro (hlt | ⟨rfl, ⟨more, hne, rfl⟩ | ⟨front, p, q, ps, qs, rfl, rfl, hlt⟩⟩)
        · exact .inr ⟨[], m, n, ms, ns, rfl, rfl, hlt⟩
        · exact .inl ⟨more, hne, rfl⟩
        · exact .inr ⟨m :: front, p, q, ps, qs, rfl, rfl, hlt⟩
      · rintro (⟨more, hne, he⟩ | ⟨front, p, q, ps, qs, he, he', hlt⟩)
        · obtain ⟨rfl, rfl⟩ : n = m ∧ ns = ms ++ more := by simpa using he
          exact .inr ⟨rfl, .inl ⟨more, hne, rfl⟩⟩
        · cases front with
          | nil =>
            obtain ⟨rfl, rfl⟩ : m = p ∧ ms = ps := by simpa using he
            obtain ⟨rfl, rfl⟩ : n = q ∧ ns = qs := by simpa using he'
            exact .inl hlt
          | cons f front =>
            obtain ⟨rfl, rfl⟩ : m = f ∧ ms = front ++ p :: ps := by simpa using he
            obtain ⟨rfl, rfl⟩ : n = m ∧ ns = front ++ q :: qs := by simpa using he'
            exact .inr ⟨rfl, .inr ⟨front, p, q, ps, qs, rfl, rfl, hlt⟩⟩

theorem insertionSort_ordered {α β : Type} [LT β] [LE β] [DecidableEq β] [DecidableLT β]
    [Std.IsLinearOrder β] [Std.LawfulOrderLT β] {f : α → List β} {xs : List α}
    (h : xs.Pairwise fun a b => f a ≠ f b) :
    (xs.insertionSort fun a b => f a ≤ f b).Pairwise fun a b => f a < f b := by
  have htotal : Std.Total fun a b => f a ≤ f b := ⟨fun a b => List.le_total (f a) (f b)⟩
  have htrans : IsTrans α fun a b => f a ≤ f b := ⟨fun _ _ _ hab hbc => List.le_trans hab hbc⟩
  have hsorted := List.pairwise_insertionSort (fun a b => f a ≤ f b) xs
  have hdistinct := ((List.perm_insertionSort (fun a b => f a ≤ f b) xs).pairwise_iff
    (R := fun a b => f a ≠ f b) Ne.symm).mpr h
  refine (hsorted.and hdistinct).imp fun {a b} ⟨hle, hne⟩ => ?_
  by_cases hlt : f a < f b
  · exact hlt
  · exact absurd (List.le_antisymm hle hlt) hne

/-- Two lists in strict order with the same elements are the same. -/
theorem eq_of_ordered {α : Type} {key : α → Location} {xs ys : List α}
    (hx : xs.Pairwise fun a b => key a < key b) (hy : ys.Pairwise fun a b => key a < key b)
    (h : ∀ a, a ∈ xs ↔ a ∈ ys) : xs = ys := by
  have hnodup {zs : List α} (hz : zs.Pairwise fun a b => key a < key b) : zs.Nodup := by
    refine hz.imp ?_
    rintro a _ hlt rfl
    exact List.lt_irrefl _ hlt
  have hperm : xs.Perm ys := (List.perm_ext_iff_of_nodup (hnodup hx) (hnodup hy)).mpr h
  exact hperm.eq_of_pairwise (fun a b _ _ hab hba => absurd hab (List.lt_asymm hba)) hx hy

variable {fs : FileSystem} {loc names : Location} {e : Entry}

theorem below_eq (fs : FileSystem) (loc : Location) :
    fs.below loc = ((fs.entries.filter fun e => loc.isPrefixOf e.1 && e.1 ≠ loc).map fun e =>
      (e.1.drop loc.length, e.2)).insertionSort fun a b => a.1 ≤ b.1 := by
  have hinsert (e : Location × Entry) (es : List (Location × Entry)) :
      insertInOrder e es = es.orderedInsert (fun a b => a.1 ≤ b.1) e := by
    induction es with
    | nil => rfl
    | cons f es ih => simp [insertInOrder, walkOrder, ih]
  unfold below
  generalize (List.map _ _) = es
  induction es with
  | nil => rfl
  | cons e es ih => rw [List.foldr_cons, ih, hinsert, List.insertionSort_cons]

theorem mem_below_iff :
    (names, e) ∈ fs.below loc ↔ names ≠ [] ∧ fs.get? (loc ++ names) = some e := by
  rw [below_eq, List.mem_insertionSort, List.mem_map]
  constructor
  · rintro ⟨⟨full, found⟩, hmem, he⟩
    obtain ⟨hentry, hk⟩ := List.mem_filter.mp hmem
    simp only [Bool.and_eq_true, decide_eq_true_eq, List.isPrefixOf_iff_prefix] at hk
    obtain ⟨⟨more, rfl⟩, hne⟩ := hk
    obtain ⟨rfl, rfl⟩ : more = names ∧ found = e := by simpa using he
    exact ⟨by simpa using hne, get?_of_mem hentry⟩
  · rintro ⟨hne, he⟩
    refine ⟨(loc ++ names, e), List.mem_filter.mpr ⟨mem_of_get? (by simp [hne]) he, ?_⟩, by simp⟩
    simp [List.isPrefixOf_iff_prefix, hne]

theorem below_ordered (fs : FileSystem) (loc : Location) :
    (fs.below loc).Pairwise fun a b => a.1 < b.1 := by
  rw [below_eq]
  refine insertionSort_ordered ?_
  rw [List.pairwise_map, List.pairwise_filter]
  refine (List.pairwise_map.mp fs.nodup).imp fun hne ha hb he => hne ?_
  simp only [Bool.and_eq_true, List.isPrefixOf_iff_prefix] at ha hb
  obtain ⟨⟨more, hmore⟩, _⟩ := ha
  obtain ⟨⟨more', hmore'⟩, _⟩ := hb
  obtain rfl : more = more' := by simpa [← hmore, ← hmore'] using he
  rw [← hmore, ← hmore']

end Screenwright.Proofs.Listing
