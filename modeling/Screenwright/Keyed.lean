namespace Screenwright.Keyed

/-- Puts an element in place of the one with its key, or at the end. -/
def put [DecidableEq κ] (key : α → κ) (a : α) : List α → List α
  | [] => [a]
  | b :: bs => if key b = key a then a :: bs else b :: put key a bs

theorem map_put [DecidableEq κ] (key : α → κ) (a : α) (as : List α) :
    (put key a as).map key =
      if key a ∈ as.map key then as.map key else as.map key ++ [key a] := by
  induction as with
  | nil => simp [put]
  | cons b bs ih =>
    by_cases h : key b = key a
    · simp [put, h]
    · have h' : key a ≠ key b := fun he => h he.symm
      simp only [put, h, if_false, List.map_cons, ih, List.mem_cons, h', false_or]
      split <;> simp

theorem nodup_put [DecidableEq κ] {key : α → κ} {a : α} {as : List α}
    (h : (as.map key).Nodup) : ((put key a as).map key).Nodup := by
  rw [map_put]
  split
  · exact h
  · rename_i hn
    refine List.nodup_append.mpr ⟨h, by simp, ?_⟩
    intro x hx y hy hxy
    rw [List.mem_singleton.mp hy] at hxy
    exact hn (hxy ▸ hx)

theorem put_of_not_mem [DecidableEq κ] {key : α → κ} {a : α} {as : List α}
    (h : key a ∉ as.map key) : put key a as = as ++ [a] := by
  induction as with
  | nil => rfl
  | cons b bs ih =>
    simp only [List.map_cons, List.mem_cons, not_or] at h
    rw [put, if_neg (Ne.symm h.1), ih h.2, List.cons_append]

theorem put_append_cons [DecidableEq κ] {key : α → κ} {a b : α} {as bs : List α}
    (hb : key b = key a) (has : key b ∉ as.map key) :
    put key a (as ++ b :: bs) = as ++ a :: bs := by
  induction as with
  | nil => exact if_pos hb
  | cons c as ih =>
    simp only [List.map_cons, List.mem_cons, not_or] at has
    have hc : ¬ key c = key a := fun hc => has.1 (hb.trans hc.symm)
    rw [List.cons_append, put, if_neg hc, ih has.2, List.cons_append]

/-- An element is put where what it is mapped to is put, under the same key. -/
theorem map_put_comm [DecidableEq κ] {key : α → κ} (key' : β → κ) {f : α → β}
    (h : ∀ a, key' (f a) = key a) (a : α) (as : List α) :
    (put key a as).map f = put key' (f a) (as.map f) := by
  induction as with
  | nil => rfl
  | cons b bs ih =>
    rw [List.map_cons, put, put, h, h, ← ih]
    split <;> rfl

theorem map_foldl_put [DecidableEq κ] {key : α → κ} (key' : β → κ) {f : α → β}
    (h : ∀ a, key' (f a) = key a) (as bs : List α) :
    (as.foldl (fun bs a => put key a bs) bs).map f =
      (as.map f).foldl (fun bs b => put key' b bs) (bs.map f) := by
  induction as generalizing bs with
  | nil => rfl
  | cons a as ih => rw [List.foldl_cons, ih, map_put_comm key' h, List.map_cons, List.foldl_cons]

/-- Elements with distinct keys, put one after the other, are kept as they come. -/
theorem foldl_put_of_nodup [DecidableEq κ] {key : α → κ} {as bs : List α}
    (h : ((bs ++ as).map key).Nodup) :
    as.foldl (fun bs a => put key a bs) bs = bs ++ as := by
  induction as generalizing bs with
  | nil => simp
  | cons a as ih =>
    have hnew : key a ∉ bs.map key := by
      rw [List.map_append, List.map_cons] at h
      intro ha
      exact (List.nodup_append.mp h).2.2 _ ha _ List.mem_cons_self rfl
    rw [List.foldl_cons, put_of_not_mem hnew, ih (by simpa using h), List.append_assoc,
      List.singleton_append]

theorem mem_put_self [DecidableEq κ] (key : α → κ) (a : α) (as : List α) :
    a ∈ put key a as := by
  induction as with
  | nil => simp [put]
  | cons b bs ih =>
    unfold put
    split <;> simp [ih]

theorem eq_or_mem_of_mem_put [DecidableEq κ] {key : α → κ} {a x : α} {as : List α}
    (h : x ∈ put key a as) : x = a ∨ x ∈ as := by
  induction as with
  | nil => exact .inl (by simpa [put] using h)
  | cons b bs ih =>
    unfold put at h
    split at h
    · rcases List.mem_cons.mp h with he | hm
      · exact .inl he
      · exact .inr (List.mem_cons_of_mem _ hm)
    · rcases List.mem_cons.mp h with he | hm
      · exact .inr (by simp [he])
      · exact (ih hm).imp id (List.mem_cons_of_mem _)

theorem mem_put_of_mem [DecidableEq κ] {key : α → κ} {a x : α} {as : List α}
    (h : x ∈ as) (hk : key x ≠ key a) : x ∈ put key a as := by
  induction as with
  | nil => simp at h
  | cons b bs ih =>
    unfold put
    split
    · rename_i hb
      rcases List.mem_cons.mp h with he | hm
      · exact absurd (he ▸ hb) hk
      · exact List.mem_cons_of_mem _ hm
    · rcases List.mem_cons.mp h with he | hm
      · simp [he]
      · exact List.mem_cons_of_mem _ (ih hm)

theorem filter_key [DecidableEq κ] {key : α → κ} {a : α} {as : List α}
    (h : (as.map key).Nodup) (ha : a ∈ as) : as.filter (key · = key a) = [a] := by
  induction as with
  | nil => cases ha
  | cons b bs ih =>
    obtain ⟨hb, hbs⟩ := List.nodup_cons.mp h
    rcases List.mem_cons.mp ha with rfl | ha
    · have hnone : bs.filter (key · = key a) = [] := by
        refine List.filter_eq_nil_iff.mpr fun c hc => ?_
        have hne : key c ≠ key a := fun he => hb (he ▸ List.mem_map_of_mem hc)
        simp [hne]
      simp [hnone]
    · have hne : key b ≠ key a := fun he => hb (he ▸ List.mem_map_of_mem ha)
      simp [hne, ih hbs ha]

theorem find?_key [DecidableEq κ] {key : α → κ} {a : α} {as : List α}
    (h : (as.map key).Nodup) (ha : a ∈ as) : as.find? (key · = key a) = some a := by
  rw [← List.head?_filter, filter_key h ha, List.head?_cons]

theorem filter_eq_find? [DecidableEq κ] {key : α → κ} {as : List α} (h : (as.map key).Nodup)
    (k : κ) : as.filter (key · = k) = (as.find? (key · = k)).toList := by
  cases hf : as.find? (key · = k) with
  | none => simpa using hf
  | some a =>
    have hk : key a = k := by simpa using List.find?_some hf
    exact hk ▸ filter_key h (List.mem_of_find?_eq_some hf)

theorem find?_put [DecidableEq κ] (key : α → κ) (a : α) (as : List α) (k : κ) :
    (put key a as).find? (key · = k) = if k = key a then some a else as.find? (key · = k) := by
  induction as with
  | nil => by_cases h : k = key a <;> simp [put, h, Ne.symm]
  | cons b bs ih =>
    unfold put
    by_cases hb : key b = key a
    · by_cases h : k = key a
      · simp [hb, h]
      · have h' : key a ≠ k := fun he => h he.symm
        simp [hb, h, h']
    · by_cases hk : key b = k
      · have h : k ≠ key a := fun he => hb (hk.trans he)
        simp [hk, h]
      · simp [hb, hk, ih]

theorem find?_foldl_put [DecidableEq κ] (key : α → κ) (as bs : List α) (k : κ) :
    (as.foldl (fun bs a => put key a bs) bs).find? (key · = k) =
      (as.reverse.find? (key · = k)).or (bs.find? (key · = k)) := by
  induction as generalizing bs with
  | nil => simp
  | cons a as ih =>
    rw [List.foldl_cons, ih, find?_put, List.reverse_cons, List.find?_append, Option.or_assoc]
    by_cases h : k = key a
    · simp [h]
    · have h' : key a ≠ k := fun he => h he.symm
      simp [h, h']

theorem find?_eq_some_iff [DecidableEq κ] {key : α → κ} {as : List α} (h : (as.map key).Nodup)
    {k : κ} {a : α} : as.find? (key · = k) = some a ↔ a ∈ as ∧ key a = k := by
  constructor
  · exact fun hf => ⟨List.mem_of_find?_eq_some hf, by simpa using List.find?_some hf⟩
  · rintro ⟨ha, rfl⟩
    exact find?_key h ha

/-- With distinct keys, what a key selects does not depend on the order. -/
theorem find?_perm [DecidableEq κ] {key : α → κ} {as bs : List α} (hp : as.Perm bs)
    (h : (as.map key).Nodup) (k : κ) : as.find? (key · = k) = bs.find? (key · = k) := by
  have h' : (bs.map key).Nodup := (hp.map key).nodup h
  refine Option.ext fun a => ?_
  rw [find?_eq_some_iff h, find?_eq_some_iff h', hp.mem_iff]

/-- With distinct keys, dropping elements can only lose what a key selects, not change it. -/
theorem find?_filter_key [DecidableEq κ] {key : α → κ} {as : List α} (h : (as.map key).Nodup)
    (keep : α → Bool) (k : κ) :
    (as.filter keep).find? (key · = k) = (as.find? (key · = k)).filter keep := by
  induction as with
  | nil => rfl
  | cons b bs ih =>
    obtain ⟨hb, hbs⟩ := List.nodup_cons.mp h
    by_cases hk : key b = k
    · have hnone : (bs.filter keep).find? (key · = k) = none := by
        refine List.find?_eq_none.mpr fun c hc he => hb ?_
        have hck : key c = key b := by simpa [hk] using he
        exact hck ▸ List.mem_map_of_mem (List.mem_filter.mp hc).1
      cases hkeep : keep b <;> simp [hk, hkeep, hnone, Option.filter]
    · cases hkeep : keep b <;> simp [hk, hkeep, ih hbs]

end Screenwright.Keyed
