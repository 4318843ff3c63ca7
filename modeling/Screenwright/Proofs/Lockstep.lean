import Screenwright.Proofs.Running

namespace Screenwright.Proofs.Lockstep
open Files FileAction Running

variable {ε δ α β γ ζ : Type}

/-- Two results, or two errors. -/
inductive SameEnd (E : ε → δ → Prop) (R : α → β → Prop) : Except ε α → Except δ β → Prop where
  | ok {a : α} {b : β} : R a b → SameEnd E R (.ok a) (.ok b)
  | error {e : ε} {d : δ} : E e d → SameEnd E R (.error e) (.error d)

/-- Which errors or results they are does not matter. -/
abbrev Any (_ : α) (_ : β) : Prop := True

theorem SameEnd.of_iff {r : Except ε α} {r' : Except δ β}
    (h : (∃ a, r = .ok a) ↔ ∃ b, r' = .ok b) : SameEnd Any Any r r' := by
  cases r with
  | ok a =>
    obtain ⟨b, rfl⟩ := h.mp ⟨a, rfl⟩
    exact .ok trivial
  | error e =>
    cases r' with
    | ok b =>
      obtain ⟨a, ha⟩ := h.mpr ⟨b, rfl⟩
      cases ha
    | error d => exact .error trivial

theorem SameEnd.mono {E E' : ε → δ → Prop} {R R' : α → β → Prop} {r : Except ε α}
    {r' : Except δ β} (h : SameEnd E R r r') (he : ∀ e d, E e d → E' e d)
    (hr : ∀ a b, R a b → R' a b) : SameEnd E' R' r r' := by
  cases h with
  | ok h => exact .ok (hr _ _ h)
  | error h => exact .error (he _ _ h)

/-- Two actions that end alike from two file systems on, and leave related ones behind. -/
def EndAlike (S : FileSystem → FileSystem → Prop) (E : ε → δ → Prop) (R : α → β → Prop)
    (act : FileAction ε α) (act' : FileAction δ β) (fs fs' : FileSystem) : Prop :=
  SameEnd E R (act.runOn fs).1 (act'.runOn fs').1 ∧ S (act.runOn fs).2 (act'.runOn fs').2

/-- Two actions that end alike from all related file systems on. -/
def InStep (S : FileSystem → FileSystem → Prop) (E : ε → δ → Prop) (R : α → β → Prop)
    (act : FileAction ε α) (act' : FileAction δ β) : Prop :=
  ∀ fs fs', S fs fs' → EndAlike S E R act act' fs fs'

section Rules

variable {S : FileSystem → FileSystem → Prop} {E : ε → δ → Prop} {R : α → β → Prop}
variable {T : γ → ζ → Prop}

theorem InStep.pure {a : α} {b : β} (h : R a b) :
    InStep S E R (Pure.pure a) (Pure.pure b) := fun _ _ hs => ⟨.ok h, hs⟩

theorem InStep.throw {e : ε} {d : δ} (h : E e d) :
    InStep S E R (MonadExcept.throw e) (MonadExcept.throw d) := fun _ _ hs => ⟨.error h, hs⟩

theorem inStep_ofExcept {r : Except ε α} {r' : Except δ β} (h : SameEnd E R r r') :
    InStep S E R (.ofExcept r) (.ofExcept r') := fun _ _ hs => ⟨h, hs⟩

theorem EndAlike.bind {act : FileAction ε α} {act' : FileAction δ β} {f : α → FileAction ε γ}
    {f' : β → FileAction δ ζ} {fs fs' : FileSystem} (h : EndAlike S E R act act' fs fs')
    (hf : ∀ a b, R a b → InStep S E T (f a) (f' b)) :
    EndAlike S E T (act >>= f) (act' >>= f') fs fs' := by
  obtain ⟨hend, hleft⟩ := h
  unfold EndAlike
  rw [runOn_bind, runOn_bind]
  generalize act.runOn fs = left at hend hleft
  generalize act'.runOn fs' = right at hend hleft
  obtain ⟨r, after⟩ := left
  obtain ⟨r', after'⟩ := right
  dsimp only at hend hleft
  cases hend with
  | ok hab => exact hf _ _ hab after after' hleft
  | error he => exact ⟨.error he, hleft⟩

theorem InStep.bind {act : FileAction ε α} {act' : FileAction δ β} {f : α → FileAction ε γ}
    {f' : β → FileAction δ ζ} (h : InStep S E R act act')
    (hf : ∀ a b, R a b → InStep S E T (f a) (f' b)) :
    InStep S E T (act >>= f) (act' >>= f') := fun fs fs' hs => (h fs fs' hs).bind hf

theorem InStep.ofExcept_ok_bind {a : α} {b : β} {f : α → FileAction ε γ} {f' : β → FileAction δ ζ}
    (h : InStep S E T (f a) (f' b)) :
    InStep S E T (FileAction.ofExcept (.ok a) >>= f) (FileAction.ofExcept (.ok b) >>= f') := h

theorem InStep.ofExcept_bind {r : Except ε α} {f : α → FileAction ε β} {f' : α → FileAction ε γ}
    {T : β → γ → Prop} (h : ∀ a, r = .ok a → InStep S Any T (f a) (f' a)) :
    InStep S Any T (FileAction.ofExcept r >>= f) (FileAction.ofExcept r >>= f') := by
  cases r with
  | ok a => exact h a rfl
  | error e => exact fun _ _ hs => ⟨.error trivial, hs⟩

theorem InStep.mapError {act : FileAction ε α} {act' : FileAction δ β} {f : ε → γ} {g : δ → ζ}
    (h : InStep S E R act act') : InStep S Any R (act.mapError f) (act'.mapError g) := by
  intro fs fs' hs
  obtain ⟨hend, hleft⟩ := h fs fs' hs
  refine ⟨?_, hleft⟩
  change SameEnd Any R ((act.runOn fs).1.mapError f) ((act'.runOn fs').1.mapError g)
  generalize (act.runOn fs).1 = r at hend
  generalize (act'.runOn fs').1 = r' at hend
  cases hend with
  | ok hab => exact .ok hab
  | error he => exact .error trivial

theorem InStep.any {act : FileAction ε α} {act' : FileAction δ β} (h : InStep S E R act act') :
    InStep S Any Any act act' := by
  intro fs fs' hs
  obtain ⟨hend, hleft⟩ := h fs fs' hs
  exact ⟨hend.mono (fun _ _ _ => trivial) fun _ _ _ => trivial, hleft⟩

theorem InStep.get {f : FileSystem → FileAction ε α} {f' : FileSystem → FileAction δ β}
    (h : ∀ fs fs', S fs fs' → InStep S E R (f fs) (f' fs')) :
    InStep S E R (MonadState.get >>= f) (MonadState.get >>= f') :=
  fun fs fs' hs => h fs fs' hs fs fs' hs

theorem InStep.forM {f : α → FileAction ε Unit} {f' : α → FileAction δ Unit} {xs : List α}
    (h : ∀ x ∈ xs, InStep S E Any (f x) (f' x)) : InStep S E Any (xs.forM f) (xs.forM f') := by
  induction xs with
  | nil => exact .pure trivial
  | cons x xs ih =>
    obtain ⟨hx, hxs⟩ := List.forall_mem_cons.mp h
    exact .bind hx fun _ _ _ => ih hxs

theorem InStep.mapM {f : α → FileAction ε β} {f' : α → FileAction δ γ} {xs : List α}
    (h : ∀ x ∈ xs, InStep S E Any (f x) (f' x)) : InStep S E Any (xs.mapM f) (xs.mapM f') := by
  induction xs with
  | nil => exact .pure trivial
  | cons x xs ih =>
    obtain ⟨hx, hxs⟩ := List.forall_mem_cons.mp h
    rw [List.mapM_cons, List.mapM_cons]
    exact .bind hx fun _ _ _ => .bind (ih hxs) fun _ _ _ => .pure trivial

end Rules

section Lineages

variable {S : FileSystem → FileSystem → Prop} {a a' : Address} {above above' : List Address}

theorem InStep.ensureDirectory (h : InStep S Eq Any (createDirectory a) (createDirectory a'))
    (hthere : InStep S Eq Eq (Files.isDirectory (ε := FileError) a)
      (Files.isDirectory (ε := FileError) a')) :
    InStep S Eq Any (Files.ensureDirectory a) (Files.ensureDirectory a') := by
  intro fs fs' hs
  obtain ⟨hend, hleft⟩ := h fs fs' hs
  unfold EndAlike
  rw [runOn_ensureDirectory, runOn_ensureDirectory]
  generalize (createDirectory a).runOn fs = left at hend hleft
  generalize (createDirectory a').runOn fs' = right at hend hleft
  obtain ⟨r, after⟩ := left
  obtain ⟨r', after'⟩ := right
  dsimp only at hend hleft
  cases hend with
  | ok => exact ⟨.ok trivial, hleft⟩
  | @error e _ he =>
    subst he
    obtain ⟨hfound, hlast⟩ := hthere after after' hleft
    dsimp only
    generalize (Files.isDirectory (ε := FileError) a).runOn after = left at hfound hlast
    generalize (Files.isDirectory (ε := FileError) a').runOn after' = right at hfound hlast
    obtain ⟨r, last⟩ := left
    obtain ⟨r', last'⟩ := right
    dsimp only at hfound hlast
    cases hfound with
    | @ok there _ hsame =>
      subst hsame
      cases there with
      | true => exact ⟨.ok trivial, hlast⟩
      | false => exact ⟨.error rfl, hlast⟩
    | error => exact ⟨.error rfl, hlast⟩

theorem InStep.createLineage (h : InStep S Eq Any (createDirectory a) (createDirectory a'))
    (hensure : InStep S Eq Any (Files.ensureDirectory a) (Files.ensureDirectory a'))
    (habove : InStep S Eq Any (Files.createLineage above) (Files.createLineage above')) :
    InStep S Eq Any (Files.createLineage (a :: above)) (Files.createLineage (a' :: above')) := by
  have hboth : InStep S Eq Any (Files.createLineage above *> Files.ensureDirectory a)
      (Files.createLineage above' *> Files.ensureDirectory a') := by
    rw [seqRight_eq_bind, seqRight_eq_bind]
    exact habove.bind fun _ _ _ => hensure
  intro fs fs' hs
  obtain ⟨hend, hleft⟩ := h fs fs' hs
  unfold EndAlike
  rw [runOn_createLineage, runOn_createLineage]
  generalize (createDirectory a).runOn fs = left at hend hleft
  generalize (createDirectory a').runOn fs' = right at hend hleft
  obtain ⟨r, after⟩ := left
  obtain ⟨r', after'⟩ := right
  dsimp only at hend hleft
  cases hend with
  | ok => exact ⟨.ok trivial, hleft⟩
  | @error e _ he =>
    subst he
    cases e with
    | notFound => exact hboth after after' hleft
    | _ => exact hensure after after' hleft

end Lineages

end Screenwright.Proofs.Lockstep
