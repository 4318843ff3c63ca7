import Screenwright.Files.Action
import Screenwright.Proofs.Listing
import Screenwright.Proofs.Outcomes

namespace Screenwright.Proofs.Running
open Files FileAction Entries Listing Outcomes

variable {ε δ α β : Type} {I : FileSystem → Prop}

/-- Started under an invariant and a condition, an action keeps the invariant, and brings its
result about with another condition if it succeeds. -/
def Runs (I P : FileSystem → Prop) (act : FileAction ε α) (Q : α → FileSystem → Prop) : Prop :=
  ∀ fs, I fs → P fs → I (act.runOn fs).2 ∧ ∀ a, (act.runOn fs).1 = .ok a → Q a (act.runOn fs).2

def Keeps (I : FileSystem → Prop) (act : FileAction ε α) : Prop := ∀ fs, I fs → I (act.runOn fs).2

theorem Runs.keeps {Q : α → FileSystem → Prop} {act : FileAction ε α}
    (h : Runs I (fun _ => True) act Q) : Keeps I act := fun fs hi => (h fs hi trivial).1

theorem Keeps.runs {P : FileSystem → Prop} {act : FileAction ε α} (h : Keeps I act) :
    Runs I P act fun _ _ => True := fun fs hi _ => ⟨h fs hi, fun _ _ => trivial⟩

theorem runOn_bind (act : FileAction ε α) (f : α → FileAction ε β) (fs : FileSystem) :
    (act >>= f).runOn fs =
      match act.runOn fs with
      | (.ok a, fs) => (f a).runOn fs
      | (.error e, fs) => (.error e, fs) := by
  unfold runOn
  simp only [bind, ExceptT.bind, ExceptT.mk, StateT.bind, ExceptT.bindCont]
  cases act fs with
  | mk r fs => cases r <;> rfl

theorem runOn_bind_ok {act : FileAction ε α} {f : α → FileAction ε β} {fs last : FileSystem} {b : β}
    (h : (act >>= f).runOn fs = (.ok b, last)) :
    ∃ a after, act.runOn fs = (.ok a, after) ∧ (f a).runOn after = (.ok b, last) := by
  rw [runOn_bind] at h
  cases hr : act.runOn fs with
  | mk r after =>
    rw [hr] at h
    cases r with
    | ok a => exact ⟨a, after, rfl, h⟩
    | error e => cases h

theorem bind_ok {act : FileAction ε α} {f : α → FileAction ε β} {fs : FileSystem} {b : β}
    (h : ((act >>= f).runOn fs).1 = .ok b) :
    ∃ a after, act.runOn fs = (.ok a, after) ∧ ((f a).runOn after).1 = .ok b := by
  obtain ⟨a, after, hact, hrest⟩ := runOn_bind_ok (Prod.ext h rfl)
  exact ⟨a, after, hact, congrArg Prod.fst hrest⟩

theorem Runs.bind {P : FileSystem → Prop} {Q : α → FileSystem → Prop}
    {R : β → FileSystem → Prop} {act : FileAction ε α} {f : α → FileAction ε β}
    (h : Runs I P act Q) (hf : ∀ a, Runs I (Q a) (f a) R) : Runs I P (act >>= f) R := by
  intro fs hi hp
  obtain ⟨hi', hq⟩ := h fs hi hp
  rw [runOn_bind]
  cases hr : act.runOn fs with
  | mk r fs' =>
    rw [hr] at hi' hq
    cases r with
    | ok a => exact hf a fs' hi' (hq a rfl)
    | error e => exact ⟨hi', fun _ he => nomatch he⟩

theorem Runs.then {P P' : FileSystem → Prop} {Q : α → FileSystem → Prop} {act : FileAction ε α}
    (h : Runs I P act Q) (hp : ∀ fs, I fs → P' fs → P fs) : Runs I P' act Q :=
  fun fs hi hp' => h fs hi (hp fs hi hp')

theorem Runs.mono {P : FileSystem → Prop} {Q Q' : α → FileSystem → Prop} {act : FileAction ε α}
    (h : Runs I P act Q) (hq : ∀ a fs, Q a fs → Q' a fs) : Runs I P act Q' := by
  intro fs hi hp
  obtain ⟨hi', hres⟩ := h fs hi hp
  exact ⟨hi', fun a ha => hq a _ (hres a ha)⟩

theorem Runs.exists {γ : Type} {P : γ → FileSystem → Prop} {Q : α → FileSystem → Prop}
    {act : FileAction ε α} (h : ∀ c, Runs I (P c) act Q) : Runs I (fun fs => ∃ c, P c fs) act Q :=
  fun fs hi ⟨c, hp⟩ => h c fs hi hp

theorem Runs.given {c : Prop} {P : FileSystem → Prop} {Q : α → FileSystem → Prop}
    {act : FileAction ε α} (h : c → Runs I P act Q) : Runs I (fun fs => c ∧ P fs) act Q :=
  fun fs hi ⟨hc, hp⟩ => h hc fs hi hp

/-- A step may rely on what is known of the results of the one before. -/
theorem Keeps.bind_of {Q : α → Prop} {act : FileAction ε α} {f : α → FileAction ε β}
    (h : Keeps I act) (hq : ∀ fs a, (act.runOn fs).1 = .ok a → Q a)
    (hf : ∀ a, Q a → Keeps I (f a)) : Keeps I (act >>= f) := by
  intro fs hi
  have hact := h fs hi
  have hres := hq fs
  rw [runOn_bind]
  cases hr : act.runOn fs with
  | mk r fs' =>
    rw [hr] at hact hres
    cases r with
    | ok a => exact hf a (hres a rfl) fs' hact
    | error e => exact hact

theorem Keeps.bind {act : FileAction ε α} {f : α → FileAction ε β} (h : Keeps I act)
    (hf : ∀ a, Keeps I (f a)) : Keeps I (act >>= f) :=
  .bind_of (Q := fun _ => True) h (fun _ _ _ => trivial) fun a _ => hf a

theorem Keeps.pure (a : α) : Keeps I (Pure.pure a : FileAction ε α) := fun _ hi => hi

theorem Keeps.throw (e : ε) : Keeps I (MonadExcept.throw e : FileAction ε α) := fun _ hi => hi

theorem Keeps.ofExcept (r : Except ε α) : Keeps I (.ofExcept r) := fun _ hi => hi

theorem Keeps.ofExcept_bind {r : Except ε α} {f : α → FileAction ε β}
    (h : ∀ a, r = .ok a → Keeps I (f a)) : Keeps I (FileAction.ofExcept r >>= f) :=
  .bind_of (.ofExcept r) (fun _ _ he => he) h

theorem Keeps.mapError {f : ε → δ} {act : FileAction ε α} (h : Keeps I act) :
    Keeps I (act.mapError f) := h

theorem Keeps.get : Keeps I (MonadState.get : FileAction ε FileSystem) := fun _ hi => hi

theorem Keeps.forM {f : α → FileAction ε Unit} {xs : List α} (h : ∀ x ∈ xs, Keeps I (f x)) :
    Keeps I (xs.forM f) := by
  induction xs with
  | nil => exact .pure ()
  | cons x xs ih =>
    obtain ⟨hx, hxs⟩ := List.forall_mem_cons.mp h
    exact .bind hx fun _ => ih hxs

theorem Keeps.mapM {f : α → FileAction ε β} {xs : List α} (h : ∀ x ∈ xs, Keeps I (f x)) :
    Keeps I (xs.mapM f) := by
  induction xs with
  | nil => exact .pure []
  | cons x xs ih =>
    obtain ⟨hx, hxs⟩ := List.forall_mem_cons.mp h
    rw [List.mapM_cons]
    exact .bind hx fun _ => .bind (ih hxs) fun _ => .pure _

theorem runOn_mapError_ok {f : ε → δ} {act : FileAction ε α} {fs after : FileSystem} {a : α}
    (h : (act.mapError f).runOn fs = (.ok a, after)) : act.runOn fs = (.ok a, after) := by
  have hsame : (act.runOn fs).2 = after := Prod.mk.inj h |>.2
  exact Prod.ext (mapError_ok_iff.mp (congrArg Prod.fst h)) hsame

theorem ofExcept_bind_ok {r : Except ε α} {f : α → FileAction ε β} {fs last : FileSystem} {b : β}
    (h : (FileAction.ofExcept r >>= f).runOn fs = (.ok b, last)) :
    ∃ a, r = .ok a ∧ (f a).runOn fs = (.ok b, last) := by
  obtain ⟨a, after, hact, hrest⟩ := runOn_bind_ok h
  obtain ⟨hr, rfl⟩ := Prod.mk.inj hact
  exact ⟨a, hr, hrest⟩

theorem Runs.mapError {f : ε → δ} {P : FileSystem → Prop} {Q : α → FileSystem → Prop}
    {act : FileAction ε α} (h : Runs I P act Q) : Runs I P (act.mapError f) Q := by
  intro fs hi hp
  obtain ⟨hi', hq⟩ := h fs hi hp
  exact ⟨hi', fun a ha => hq a (mapError_ok_iff.mp ha)⟩

theorem Runs.throw {P : FileSystem → Prop} {Q : α → FileSystem → Prop} (e : ε) :
    Runs I P (MonadExcept.throw e : FileAction ε α) Q := fun _ hi _ => ⟨hi, fun _ he => nomatch he⟩

theorem runs_ofExcept {P : FileSystem → Prop} (r : Except ε α) :
    Runs I P (.ofExcept r) fun a fs => P fs ∧ r = .ok a :=
  fun _ hi hp => ⟨hi, fun _ he => ⟨hp, he⟩⟩

theorem runs_look {P : FileSystem → Prop} (follow : Bool) (a : Address) :
    Runs I P (look follow a) fun place fs => P fs ∧ resolve fs follow a = .ok place :=
  fun _ hi hp => ⟨hi, fun _ he => ⟨hp, he⟩⟩

theorem Runs.pure {P : FileSystem → Prop} {Q : α → FileSystem → Prop} {a : α}
    (h : ∀ fs, P fs → Q a fs) : Runs I P (Pure.pure a : FileAction ε α) Q := by
  intro fs hi hp
  refine ⟨hi, fun b hb => ?_⟩
  cases hb
  exact h fs hp

theorem runs_get {P : FileSystem → Prop} :
    Runs I P (MonadState.get : FileAction ε FileSystem) fun found fs => P fs ∧ found = fs := by
  intro fs hi hp
  refine ⟨hi, fun found he => ⟨hp, ?_⟩⟩
  cases he
  rfl

theorem runOn_putEntry (loc : Location) (e : Entry) (fs : FileSystem) :
    (putEntry loc e).runOn fs =
      if fs.lacksRoom loc e then (.error .noSpace, fs)
      else if fs.admits loc e then (.ok (), fs.put loc e)
      else (.error .notFound, fs) := rfl

/-- An entry goes in where it may, or else nothing changes. -/
theorem putEntry_cases (loc : Location) (e : Entry) (fs : FileSystem) :
    (∃ cause, (putEntry loc e).runOn fs = (.error cause, fs)) ∨
      fs.admits loc e = true ∧ (putEntry loc e).runOn fs = (.ok (), fs.put loc e) := by
  rw [runOn_putEntry]
  split
  · exact .inl ⟨_, rfl⟩
  split
  · next ha => exact .inr ⟨ha, rfl⟩
  · exact .inl ⟨_, rfl⟩

theorem runs_putEntry {P : FileSystem → Prop} {Q : Unit → FileSystem → Prop} {loc : Location}
    {e : Entry} (h : ∀ fs, I fs → P fs → fs.admits loc e = true →
      I (fs.put loc e) ∧ Q () (fs.put loc e)) : Runs I P (putEntry loc e) Q := by
  intro fs hi hp
  rcases putEntry_cases loc e fs with ⟨cause, hr⟩ | ⟨ha, hr⟩
  · rw [hr]
    exact ⟨hi, fun _ he => nomatch he⟩
  · rw [hr]
    obtain ⟨hi', hq⟩ := h fs hi hp ha
    exact ⟨hi', fun _ _ => hq⟩

theorem runOn_look (follow : Bool) (a : Address) (fs : FileSystem) :
    (look follow a).runOn fs = (resolve fs follow a, fs) := rfl

theorem createDirectory_cases (a : Address) (fs : FileSystem) :
    (∃ e, (createDirectory a).runOn fs = (.error e, fs)) ∨
      ∃ loc, resolve fs false a = .ok ⟨loc, none⟩ ∧ fs.admits loc .directory = true ∧
        (createDirectory a).runOn fs = (.ok (), fs.put loc .directory) := by
  unfold createDirectory
  rw [runOn_bind, runOn_look]
  cases hr : resolve fs false a with
  | error e => exact .inl ⟨e, rfl⟩
  | ok place =>
    obtain ⟨loc, entry⟩ := place
    cases entry with
    | some e => exact .inl ⟨.exists, rfl⟩
    | none =>
      rcases putEntry_cases loc .directory fs with ⟨cause, hput⟩ | ⟨ha, hput⟩
      · exact .inl ⟨cause, hput⟩
      · exact .inr ⟨loc, rfl, ha, hput⟩

theorem keeps_look (follow : Bool) (a : Address) : Keeps I (look follow a) := fun _ hi => hi

theorem runs_checkFile {P : FileSystem → Prop} (a : Address) (content : Content) :
    Runs I P (checkFile a content) fun found fs => P fs ∧ found = content := by
  unfold checkFile
  split
  · exact .throw _
  · intro fs hi hp
    refine ⟨hi, fun found he => ⟨hp, ?_⟩⟩
    cases he
    rfl

theorem keeps_checkFile (a : Address) (content : Content) : Keeps I (checkFile a content) :=
  (runs_checkFile a content).keeps

theorem keeps_entryAt (a : Address) : Keeps I (entryAt a) := by
  unfold entryAt
  refine .bind (keeps_look true a) fun place => ?_
  split
  · exact .throw _
  · exact .pure _
  · exact .throw _
  · exact .bind (keeps_checkFile a _) fun _ => .pure _

theorem resolve_of_entryAt {a : Address} {fs : FileSystem} {e : Entry}
    (h : ((entryAt a).runOn fs).1 = .ok e) :
    ∃ place, resolve fs true a = .ok place ∧ place.entry = some e := by
  unfold entryAt at h
  rw [runOn_bind, runOn_look] at h
  cases hr : resolve fs true a with
  | error cause =>
    rw [hr] at h
    cases h
  | ok place =>
    refine ⟨place, rfl, ?_⟩
    cases he : place.entry with
    | none =>
      simp only [hr, he] at h
      cases h
    | some found =>
      cases found with
      | directory =>
        simp only [hr, he] at h
        cases h
        rfl
      | link target =>
        simp only [hr, he] at h
        cases h
      | file content =>
        simp only [hr, he] at h
        unfold checkFile at h
        split at h
        · cases h
        · cases h
          rfl

theorem runOn_entryAt_file {a : Address} {fs : FileSystem} {loc : Location} {content : Content}
    (hr : resolve fs true a = .ok ⟨loc, some (.file content)⟩) (hend : a.endsInSlash = false) :
    (entryAt a).runOn fs = (.ok (.file content), fs) := by
  unfold entryAt
  rw [runOn_bind, runOn_look, hr]
  simp only [checkFile, hend]
  rfl

theorem keeps_contentAt (a : Address) : Keeps I (contentAt a) := by
  unfold contentAt
  refine .bind (keeps_entryAt a) fun e => ?_
  split
  · exact .pure _
  · exact .throw _

theorem entryAt_of_contentAt {a : Address} {fs : FileSystem} {content : Content}
    (h : ((contentAt a).runOn fs).1 = .ok content) :
    ((entryAt a).runOn fs).1 = .ok (.file content) := by
  unfold contentAt at h
  obtain ⟨e, after, hentry, h⟩ := bind_ok h
  rw [hentry]
  cases e with
  | file found =>
    cases h
    rfl
  | link target => cases h
  | directory => cases h

theorem keeps_isDirectory (a : Address) : Keeps I (isDirectory a : FileAction ε Bool) := by
  unfold isDirectory
  refine .bind .get fun fs => ?_
  split
  · exact .pure _
  · exact .pure _

theorem runOn_ensureDirectory (a : Address) (fs : FileSystem) :
    (ensureDirectory a).runOn fs =
      match (createDirectory a).runOn fs with
      | (.ok (), fs) => (.ok (), fs)
      | (.error e, fs) =>
        match (isDirectory (ε := FileError) a).runOn fs with
        | (.ok true, fs) => (.ok (), fs)
        | (_, fs) => (.error e, fs) := rfl

theorem runOn_createLineage (a : Address) (above : List Address) (fs : FileSystem) :
    (createLineage (a :: above)).runOn fs =
      match (createDirectory a).runOn fs with
      | (.error .notFound, fs) => (createLineage above *> ensureDirectory a).runOn fs
      | (.error _, fs) => (ensureDirectory a).runOn fs
      | (.ok (), fs) => (.ok (), fs) := rfl

theorem Keeps.ensureDirectory {a : Address} (h : Keeps I (createDirectory a)) :
    Keeps I (ensureDirectory a) := by
  intro fs hi
  have hcreate := h fs hi
  rw [runOn_ensureDirectory]
  split
  · next hr => rwa [hr] at hcreate
  · next fs' hr =>
    rw [hr] at hcreate
    have hlook := keeps_isDirectory (ε := FileError) a fs' hcreate
    split
    · next he => rwa [he] at hlook
    · next he => rwa [he] at hlook

theorem Keeps.createLineage {a : Address} {above : List Address}
    (h : Keeps I (createDirectory a)) (habove : Keeps I (createLineage above)) :
    Keeps I (createLineage (a :: above)) := by
  intro fs hi
  have hcreate := h fs hi
  rw [runOn_createLineage]
  split
  · next fs' hr =>
    rw [hr] at hcreate
    exact Keeps.bind habove (fun _ => h.ensureDirectory) fs' hcreate
  · next fs' _ hr =>
    rw [hr] at hcreate
    exact h.ensureDirectory fs' hcreate
  · next fs' hr => rwa [hr] at hcreate

theorem keeps_createLineage_of {addresses : List Address}
    (h : ∀ a ∈ addresses, Keeps I (createDirectory a)) : Keeps I (createLineage addresses) := by
  induction addresses with
  | nil => exact .pure ()
  | cons a above ih =>
    obtain ⟨ha, habove⟩ := List.forall_mem_cons.mp h
    exact ha.createLineage (ih habove)

theorem keeps_listTree (a : Address) : Keeps I (listTree a) := by
  unfold listTree
  refine .bind (keeps_look true a) fun place => ?_
  split
  · exact .throw _
  · exact .bind .get fun _ => .pure _

/-- Entries below a directory, under proper names. -/
def Named (entries : List (Location × Entry)) : Prop :=
  ∀ e ∈ entries, e.1 ≠ [] ∧ ∀ n ∈ e.1, n.isProper = true

theorem named_below (fs : FileSystem) (loc : Location) : Named (fs.below loc) := by
  rintro ⟨names, e⟩ he
  obtain ⟨hne, hget⟩ := mem_below_iff.mp he
  have hmem : (loc ++ names, e) ∈ fs.entries := mem_of_get? (by simp [hne]) hget
  exact ⟨hne, fun n hn => fs.named _ hmem n (List.mem_append_right loc hn)⟩

theorem runOn_listTree {a : Address} {fs : FileSystem} {loc : Location} {e : Entry}
    (hr : resolve fs true a = .ok ⟨loc, some e⟩) :
    (listTree a).runOn fs = (.ok (fs.below loc), fs) := by
  unfold listTree
  rw [runOn_bind, runOn_look, hr]
  rfl

theorem listTree_ok {root : Address} {fs : FileSystem}
    {entries : List (Location × Entry)} (h : ((listTree root).runOn fs).1 = .ok entries) :
    ∃ p, resolve fs true root = .ok p ∧ entries = fs.below p.location := by
  unfold listTree at h
  obtain ⟨p, after, hlook, h⟩ := bind_ok h
  rw [runOn_look] at hlook
  obtain ⟨hr, rfl⟩ := Prod.mk.inj hlook
  refine ⟨p, hr, ?_⟩
  cases he : p.entry with
  | none =>
    rw [he] at h
    cases h
  | some e =>
    rw [he] at h
    cases h
    rfl

theorem named_listTree {a : Address} {fs : FileSystem} {entries : List (Location × Entry)}
    (h : ((listTree a).runOn fs).1 = .ok entries) : Named entries := by
  obtain ⟨p, _, rfl⟩ := listTree_ok h
  exact named_below fs p.location

/-- What an action leaves behind from one file system on, if it fails and if it succeeds. -/
def Ends (fs : FileSystem) (act : FileAction ε α) (F : FileSystem → Prop)
    (S : α → FileSystem → Prop) : Prop :=
  match act.runOn fs with
  | (.error _, after) => F after
  | (.ok a, after) => S a after

variable {F : FileSystem → Prop} {S : α → FileSystem → Prop} {fs : FileSystem}

theorem Ends.bind {T : β → FileSystem → Prop} {act : FileAction ε α} {f : α → FileAction ε β}
    (h : Ends fs act F S) (hf : ∀ a after, S a after → Ends after (f a) F T) :
    Ends fs (act >>= f) F T := by
  unfold Ends at h ⊢
  rw [runOn_bind]
  cases hr : act.runOn fs with
  | mk r after =>
    rw [hr] at h
    cases r with
    | ok a => exact hf a after h
    | error e => exact h

theorem Ends.mono {G : FileSystem → Prop} {T : α → FileSystem → Prop} {act : FileAction ε α}
    (h : Ends fs act F S) (hf : ∀ after, F after → G after)
    (hs : ∀ a after, S a after → T a after) : Ends fs act G T := by
  unfold Ends at h ⊢
  cases hr : act.runOn fs with
  | mk r after =>
    rw [hr] at h
    cases r with
    | ok a => exact hs a after h
    | error e => exact hf after h

theorem Ends.mapError {f : ε → δ} {act : FileAction ε α} (h : Ends fs act F S) :
    Ends fs (act.mapError f) F S := by
  have hr : (act.mapError f).runOn fs = ((act.runOn fs).1.mapError f, (act.runOn fs).2) := rfl
  unfold Ends at h ⊢
  rw [hr]
  cases h' : act.runOn fs with
  | mk r after =>
    rw [h'] at h
    cases r with
    | ok a => exact h
    | error e => exact h

theorem ends_ofExcept {r : Except ε α} (hf : F fs) (hs : ∀ a, r = .ok a → S a fs) :
    Ends fs (.ofExcept r) F S := by
  cases r with
  | ok a => exact hs a rfl
  | error e => exact hf

/-- An action that keeps an invariant ends with it, and with its result if it succeeds. -/
theorem Runs.ends {P : FileSystem → Prop} {Q : α → FileSystem → Prop} {act : FileAction ε α}
    (h : Runs I P act Q) (hi : I fs) (hp : P fs) :
    Ends fs act I fun a after => I after ∧ Q a after := by
  obtain ⟨hi', hq⟩ := h fs hi hp
  unfold Ends
  cases hr : act.runOn fs with
  | mk r after =>
    rw [hr] at hi' hq
    cases r with
    | ok a => exact ⟨hi', hq a rfl⟩
    | error e => exact hi'

end Screenwright.Proofs.Running
