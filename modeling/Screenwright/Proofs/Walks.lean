import Screenwright.Files.Resolve
import Screenwright.Proofs.Entries

namespace Screenwright.Proofs.Walks
open Files FileSystem Entries

/-- Steps that lead from a directory to a place. -/
inductive Leads (fs : FileSystem) (follow : Bool) :
    Nat → Location → List Segment → Place → Prop
  | stop {links here} : Leads fs follow links here [] ⟨here, some .directory⟩
  | stay {links here rest p} : Leads fs follow links here rest p →
      Leads fs follow links here (.here :: rest) p
  | up {links here rest p} : Leads fs follow links here.dropLast rest p →
      Leads fs follow links here (.up :: rest) p
  | absent {links here n} : n.length ≤ nameLimit → fs.get? (here ++ [n]) = none →
      Leads fs follow links here [.name n] ⟨here ++ [n], none⟩
  | enter {links here n rest p} : n.length ≤ nameLimit →
      fs.get? (here ++ [n]) = some .directory → Leads fs follow links (here ++ [n]) rest p →
      Leads fs follow links here (.name n :: rest) p
  | file {links here n content} : n.length ≤ nameLimit →
      fs.get? (here ++ [n]) = some (.file content) →
      Leads fs follow links here [.name n] ⟨here ++ [n], some (.file content)⟩
  | link {links here n target} : n.length ≤ nameLimit → follow = false →
      fs.get? (here ++ [n]) = some (.link target) →
      Leads fs follow links here [.name n] ⟨here ++ [n], some (.link target)⟩
  | through {links here n target rest p} : n.length ≤ nameLimit →
      (rest.isEmpty && !follow) = false → fs.get? (here ++ [n]) = some (.link target) →
      Leads fs follow links (if isAbsolute target then [] else here) (segments target ++ rest) p →
      Leads fs follow (links + 1) here (.name n :: rest) p

section Steps

variable {fs : FileSystem} {follow : Bool} {links : Nat} {here : Location} {rest : List Segment}

theorem walk_nil : walk fs follow links here [] = .ok ⟨here, some .directory⟩ := by
  cases links <;> rfl

theorem walk_here : walk fs follow links here (.here :: rest) = walk fs follow links here rest := by
  cases links <;> rfl

theorem walk_up :
    walk fs follow links here (.up :: rest) = walk fs follow links here.dropLast rest := by
  cases links <;> rfl

theorem walk_name (n : FileName) :
    walk fs follow links here (.name n :: rest) =
      if nameLimit < n.length then .error .nameTooLong
      else
        match fs.get? (here ++ [n]) with
        | none => if rest.isEmpty then .ok ⟨here ++ [n], none⟩ else .error .notFound
        | some .directory => walk fs follow links (here ++ [n]) rest
        | some (.file content) =>
          if rest.isEmpty then .ok ⟨here ++ [n], some (.file content)⟩ else .error .notDirectory
        | some (.link target) =>
          if rest.isEmpty && !follow then .ok ⟨here ++ [n], some (.link target)⟩
          else
            match links with
            | 0 => .error .tooManyLinks
            | links + 1 =>
              walk fs follow links (if isAbsolute target then [] else here)
                (segments target ++ rest) := by
  cases links <;> rfl

end Steps

/-- The induction is on the links that are left, and for a number of them on the steps. -/
theorem leads_of_walk {fs : FileSystem} {follow : Bool} {links : Nat} {here : Location}
    {steps : List Segment} {p : Place} (h : walk fs follow links here steps = .ok p) :
    Leads fs follow links here steps p := by
  induction links using Nat.strongRecOn generalizing here steps with
  | ind links hlinks =>
    induction steps generalizing here with
    | nil =>
      rw [walk_nil] at h
      cases h
      exact .stop
    | cons s rest ih =>
      cases s with
      | here => exact .stay (ih (walk_here ▸ h))
      | up => exact .up (ih (walk_up ▸ h))
      | name n =>
        rw [walk_name] at h
        split at h
        · cases h
        next hn =>
        split at h
        · next hg =>
          split at h
          · next he =>
            cases h
            cases List.isEmpty_iff.mp he
            exact .absent (by omega) hg
          · cases h
        · next hg => exact .enter (by omega) hg (ih h)
        · next content hg =>
          split at h
          · next he =>
            cases h
            cases List.isEmpty_iff.mp he
            exact .file (by omega) hg
          · cases h
        · next target hg =>
          split at h
          · next he =>
            cases h
            simp only [Bool.and_eq_true, List.isEmpty_iff, Bool.not_eq_true'] at he
            cases he.1
            exact .link (by omega) he.2 hg
          · next he =>
            cases links with
            | zero => cases h
            | succ links =>
              exact .through (by omega) (Bool.eq_false_iff.mpr he) hg
                (hlinks links (Nat.lt_succ_self links) h)

theorem walk_enter {fs : FileSystem} {follow : Bool} {links : Nat} {here : Location}
    {n : FileName} (hn : n.length ≤ nameLimit) (hg : fs.get? (here ++ [n]) = some .directory)
    (rest : List Segment) :
    walk fs follow links here (.name n :: rest) = walk fs follow links (here ++ [n]) rest := by
  rw [walk_name, if_neg (by omega), hg]

theorem walk_through {fs : FileSystem} {follow : Bool} {links : Nat} {here : Location}
    {n : FileName} {target : List UInt8} {rest : List Segment} (hn : n.length ≤ nameLimit)
    (hg : fs.get? (here ++ [n]) = some (.link target)) (hr : (rest.isEmpty && !follow) = false) :
    walk fs follow (links + 1) here (.name n :: rest) =
      walk fs follow links (if isAbsolute target then [] else here) (segments target ++ rest) := by
  rw [walk_name, if_neg (by omega), hg]
  simp [hr]

theorem walk_of_leads {fs : FileSystem} {follow : Bool} {links : Nat} {here : Location}
    {steps : List Segment} {p : Place} (h : Leads fs follow links here steps p) :
    walk fs follow links here steps = .ok p := by
  induction h with
  | stop => exact walk_nil
  | stay _ ih => rwa [walk_here]
  | up _ ih => rwa [walk_up]
  | absent hn hg =>
    rw [walk_name, if_neg (by omega), hg]
    rfl
  | enter hn hg _ ih => rwa [walk_enter hn hg]
  | file hn hg =>
    rw [walk_name, if_neg (by omega), hg]
    rfl
  | link hn hf hg =>
    rw [walk_name, if_neg (by omega), hg]
    simp [hf]
  | through hn hr hg _ ih => rwa [walk_through hn hg hr]

theorem resolve_ok_iff {fs : FileSystem} {follow : Bool} {a : Address} {p : Place} :
    resolve fs follow a = .ok p ↔
      0 ∉ a.written ∧ a.written ≠ [] ∧ a.written.length ≤ addressLimit ∧
        Leads fs follow linkLimit a.origin (segments a.written) p := by
  unfold resolve
  constructor
  · intro h
    split at h
    · cases h
    split at h
    · cases h
    split at h
    · cases h
    exact ⟨by assumption, by assumption, by omega, leads_of_walk h⟩
  · rintro ⟨hz, hne, hl, h⟩
    rw [if_neg hz, if_neg hne, if_neg (by omega), walk_of_leads h]

/-- Whatever lies in the first file system lies in the second. -/
def Grows (fs fs' : FileSystem) : Prop :=
  ∀ loc e, fs.get? loc = some e → fs'.get? loc = some e

theorem Leads.grows {fs fs' : FileSystem} (hg : Grows fs fs') {follow : Bool} {links : Nat}
    {here : Location} {steps : List Segment} {p : Place} {e : Entry}
    (h : Leads fs follow links here steps p) (he : p.entry = some e) :
    Leads fs' follow links here steps p := by
  induction h with
  | stop => exact .stop
  | stay _ ih => exact .stay (ih he)
  | up _ ih => exact .up (ih he)
  | absent => cases he
  | enter hn hd _ ih => exact .enter hn (hg _ _ hd) (ih he)
  | file hn hc => exact .file hn (hg _ _ hc)
  | link hn hf hl => exact .link hn hf (hg _ _ hl)
  | through hn hr hl _ ih => exact .through hn hr (hg _ _ hl) (ih he)

/-- No link is at the end of steps that lead to a directory without following one there. -/
theorem Leads.to_directory {fs : FileSystem} {links : Nat} {here : Location}
    {steps : List Segment} {p : Place} (h : Leads fs false links here steps p)
    (hd : p.entry = some .directory) (follow : Bool) : Leads fs follow links here steps p := by
  induction h with
  | stop => exact .stop
  | stay _ ih => exact .stay (ih hd)
  | up _ ih => exact .up (ih hd)
  | absent => cases hd
  | enter hn hg _ ih => exact .enter hn hg (ih hd)
  | file => cases hd
  | link => cases hd
  | through hn hr hg _ ih =>
    refine .through hn ?_ hg (ih hd)
    rw [Bool.not_false, Bool.and_true] at hr
    rw [hr, Bool.false_and]

/-- Steps that lead to where nothing lies lead to the directory that is made there. -/
theorem Leads.made {fs fs' : FileSystem} (hg : Grows fs fs') {follow : Bool} {links : Nat}
    {here : Location} {steps : List Segment} {p : Place}
    (h : Leads fs follow links here steps p) (he : p.entry = none)
    (hd : fs'.get? p.location = some .directory) :
    Leads fs' follow links here steps ⟨p.location, some .directory⟩ := by
  induction h with
  | stop => cases he
  | stay _ ih => exact .stay (ih he hd)
  | up _ ih => exact .up (ih he hd)
  | absent hn _ => exact .enter hn hd .stop
  | enter hn hd' _ ih => exact .enter hn (hg _ _ hd') (ih he hd)
  | file => cases he
  | link => cases he
  | through hn hr hl _ ih => exact .through hn hr (hg _ _ hl) (ih he hd)

theorem Leads.none_at {fs : FileSystem} {follow : Bool} {links : Nat} {here : Location}
    {steps : List Segment} {p : Place} (h : Leads fs follow links here steps p)
    (he : p.entry = none) : fs.get? p.location = none := by
  induction h with
  | stop => cases he
  | stay _ ih => exact ih he
  | up _ ih => exact ih he
  | absent _ hg => exact hg
  | enter _ _ _ ih => exact ih he
  | file => cases he
  | link => cases he
  | through _ _ _ _ ih => exact ih he

theorem Leads.append {fs : FileSystem} {ends : Bool} {links : Nat} {here : Location}
    {steps : List Segment} {p : Place} (h : Leads fs ends links here steps p)
    (he : p.entry = some .directory) :
    ∃ left, ∀ follow more, more ≠ [] →
      walk fs follow links here (steps ++ more) = walk fs follow left p.location more := by
  induction h with
  | @stop links here => exact ⟨links, fun _ _ _ => rfl⟩
  | stay _ ih =>
    obtain ⟨left, ih⟩ := ih he
    exact ⟨left, fun follow more hm => by rw [List.cons_append, walk_here, ih follow more hm]⟩
  | up _ ih =>
    obtain ⟨left, ih⟩ := ih he
    exact ⟨left, fun follow more hm => by rw [List.cons_append, walk_up, ih follow more hm]⟩
  | absent => cases he
  | enter hn hd _ ih =>
    obtain ⟨left, ih⟩ := ih he
    exact ⟨left, fun follow more hm => by
      rw [List.cons_append, walk_enter hn hd, ih follow more hm]⟩
  | file => cases he
  | link => cases he
  | through hn hr hl _ ih =>
    obtain ⟨left, ih⟩ := ih he
    refine ⟨left, fun follow more hm => ?_⟩
    rw [List.cons_append, walk_through hn hl (by simp [hm]), ← List.append_assoc, ih follow more hm]

theorem Leads.split_nil {fs : FileSystem} {follow : Bool} {links : Nat} {here : Location}
    {all more : List Segment} {p : Place} (h : Leads fs follow links here all p)
    (hall : all = [] ++ more) :
    ∃ left mid, Leads fs true links here [] ⟨mid, some .directory⟩ ∧
      Leads fs follow left mid more p := by
  rw [List.nil_append] at hall
  subst hall
  exact ⟨links, here, .stop, h⟩

theorem Leads.split {fs : FileSystem} {follow : Bool} {links : Nat} {here : Location}
    {all steps more : List Segment} {p : Place} (h : Leads fs follow links here all p)
    (hall : all = steps ++ more) (hmore : more ≠ []) :
    ∃ left mid, Leads fs true links here steps ⟨mid, some .directory⟩ ∧
      Leads fs follow left mid more p := by
  induction h generalizing steps with
  | @stop links here =>
    obtain ⟨-, rfl⟩ := List.append_eq_nil_iff.mp hall.symm
    exact absurd rfl hmore
  | @stay links here rest p h ih =>
    cases steps with
    | nil => exact Leads.split_nil (.stay h) hall
    | cons s steps =>
      obtain ⟨rfl, hrest⟩ := List.cons.inj hall
      obtain ⟨left, mid, hsteps, hp⟩ := ih hrest
      exact ⟨left, mid, .stay hsteps, hp⟩
  | @up links here rest p h ih =>
    cases steps with
    | nil => exact Leads.split_nil (.up h) hall
    | cons s steps =>
      obtain ⟨rfl, hrest⟩ := List.cons.inj hall
      obtain ⟨left, mid, hsteps, hp⟩ := ih hrest
      exact ⟨left, mid, .up hsteps, hp⟩
  | @enter links here n rest p hn hg h ih =>
    cases steps with
    | nil => exact Leads.split_nil (.enter hn hg h) hall
    | cons s steps =>
      obtain ⟨rfl, hrest⟩ := List.cons.inj hall
      obtain ⟨left, mid, hsteps, hp⟩ := ih hrest
      exact ⟨left, mid, .enter hn hg hsteps, hp⟩
  | @through links here n target rest p hn hr hg h ih =>
    cases steps with
    | nil => exact Leads.split_nil (.through hn hr hg h) hall
    | cons s steps =>
      obtain ⟨rfl, hrest⟩ := List.cons.inj hall
      obtain ⟨left, mid, hsteps, hp⟩ := @ih (segments target ++ steps) (by simp [hrest])
      exact ⟨left, mid, .through hn (by simp) hg hsteps, hp⟩
  | @absent links here n hn hg =>
    cases steps with
    | nil => exact Leads.split_nil (.absent hn hg) hall
    | cons s steps => simp [hmore] at hall
  | @file links here n content hn hg =>
    cases steps with
    | nil => exact Leads.split_nil (.file hn hg) hall
    | cons s steps => simp [hmore] at hall
  | @link links here n target hn hf hg =>
    cases steps with
    | nil => exact Leads.split_nil (.link hn hf hg) hall
    | cons s steps => simp [hmore] at hall

/-- Where no links are on the way, names lead to the location that they spell. -/
theorem Leads.names {fs : FileSystem} {follow : Bool} {links : Nat} {here names : Location}
    {p : Place} (hd : fs.get? here = some .directory)
    (hl : ∀ front, front <+: names → ∀ target, fs.get? (here ++ front) ≠ some (.link target))
    (h : Leads fs follow links here (names.map .name) p) :
    p = ⟨here ++ names, fs.get? (here ++ names)⟩ := by
  induction names generalizing here with
  | nil =>
    cases h
    simp [hd]
  | cons n names ih =>
    have hstep : here ++ n :: names = here ++ [n] ++ names := by simp
    have hfirst := hl [n] (by simp)
    generalize hs : (n :: names).map Segment.name = steps at h
    cases h with
    | absent hn hg =>
      obtain ⟨rfl, rfl⟩ : _ ∧ names = [] := by simpa using hs
      simp [hg]
    | @enter _ _ m rest _ hn hg h =>
      obtain ⟨rfl, rfl⟩ : n = m ∧ names.map Segment.name = rest := by simpa using hs
      rw [hstep]
      refine ih hg (fun front hfront target => ?_) h
      rw [List.append_assoc]
      exact hl _ (by simpa using hfront) target
    | file hn hg =>
      obtain ⟨rfl, rfl⟩ : _ ∧ names = [] := by simpa using hs
      simp [hg]
    | link hn hf hg =>
      obtain ⟨rfl, rfl⟩ : n = _ ∧ names = [] := by simpa using hs
      exact absurd hg (hfirst _)
    | through hn hr hg h =>
      obtain ⟨rfl, rfl⟩ : n = _ ∧ names.map Segment.name = _ := by simpa using hs
      exact absurd hg (hfirst _)
    | _ => simp at hs

theorem Leads.short {fs : FileSystem} {follow : Bool} {links : Nat} {here names : Location}
    {p : Place}
    (hl : ∀ front, front <+: names → ∀ target, fs.get? (here ++ front) ≠ some (.link target))
    (h : Leads fs follow links here (names.map .name) p) : ∀ n ∈ names, n.length ≤ nameLimit := by
  induction names generalizing here with
  | nil => simp
  | cons n names ih =>
    have hfirst := hl [n] (by simp)
    generalize hs : (n :: names).map Segment.name = steps at h
    cases h with
    | absent hn _ =>
      obtain ⟨rfl, rfl⟩ : n = _ ∧ names = [] := by simpa using hs
      simpa using hn
    | enter hn hg h =>
      obtain ⟨rfl, rfl⟩ : n = _ ∧ names.map Segment.name = _ := by simpa using hs
      refine List.forall_mem_cons.mpr ⟨hn, ih (fun front hfront target => ?_) h⟩
      rw [List.append_assoc]
      exact hl _ (by simpa using hfront) target
    | file hn _ =>
      obtain ⟨rfl, rfl⟩ : n = _ ∧ names = [] := by simpa using hs
      simpa using hn
    | link _ _ hg =>
      obtain ⟨rfl, rfl⟩ : n = _ ∧ names = [] := by simpa using hs
      exact absurd hg (hfirst _)
    | through _ _ hg _ =>
      obtain ⟨rfl, rfl⟩ : n = _ ∧ names.map Segment.name = _ := by simpa using hs
      exact absurd hg (hfirst _)
    | _ => simp at hs

/-- The names of an entry lead to it, since all above it are directories. -/
theorem walk_names {fs : FileSystem} {here names : Location} {e : Entry}
    (hn : ∀ n ∈ names, n.length ≤ nameLimit) (hd : fs.get? here = some .directory)
    (he : fs.get? (here ++ names) = some e) (hl : ∀ target, e ≠ .link target) (follow : Bool)
    (links : Nat) :
    walk fs follow links here (names.map .name) = .ok ⟨here ++ names, some e⟩ := by
  induction names generalizing here with
  | nil =>
    rw [List.append_nil, hd] at he
    cases he
    simp [walk_nil]
  | cons n names ih =>
    obtain ⟨hfirst, hrest⟩ := List.forall_mem_cons.mp hn
    have hstep : here ++ n :: names = here ++ [n] ++ names := by simp
    rw [hstep] at he ⊢
    rw [List.map_cons]
    by_cases hnil : names = []
    · subst hnil
      rw [List.append_nil] at he ⊢
      rw [walk_name, if_neg (by omega), he]
      cases e with
      | directory => simp [walk_nil]
      | file content => simp
      | link target => exact absurd rfl (hl target)
    · rw [walk_enter hfirst (get?_above he hnil)]
      exact ih hrest (get?_above he hnil) he

end Screenwright.Proofs.Walks
