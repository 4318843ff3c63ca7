import Screenwright.Proofs.Building

namespace Screenwright.Proofs.Cleanup
open Files FileSystem FileAction Address Export Entries Walks Addresses Running Confinement Building
open Outcomes

/-- Files are as before, but for directories that are new and that some addresses lead to. -/
def MadeAt (as : List Address) (before after : FileSystem) : Prop :=
  ∀ loc, after.get? loc = before.get? loc ∨
    before.get? loc = none ∧ after.get? loc = some .directory ∧
      ∃ a ∈ as, resolve after false a = .ok ⟨loc, some .directory⟩

variable {as : List Address} {before after : FileSystem}

theorem MadeAt.refl (as : List Address) (fs : FileSystem) : MadeAt as fs fs := fun _ => .inl rfl

theorem MadeAt.grows (h : MadeAt as before after) : Grows before after := by
  intro loc e he
  rcases h loc with hsame | ⟨hnone, _⟩
  · rw [hsame, he]
  · rw [hnone] at he
    cases he

theorem resolve_grows {a : Address} {follow : Bool} {p : Place} {e : Entry}
    (hg : Grows before after) (h : resolve before follow a = .ok p) (he : p.entry = some e) :
    resolve after follow a = .ok p := by
  obtain ⟨hz, hne, hl, hw⟩ := resolve_ok_iff.mp h
  exact resolve_ok_iff.mpr ⟨hz, hne, hl, hw.grows hg he⟩

theorem MadeAt.trans {middle : FileSystem} (h : MadeAt as before middle)
    (h' : MadeAt as middle after) : MadeAt as before after := by
  intro loc
  rcases h' loc with hsame | ⟨hnone, hnew⟩
  · rcases h loc with hold | ⟨hnone, hd, a, ha, hr⟩
    · exact .inl (hsame.trans hold)
    · exact .inr ⟨hnone, hsame.trans hd, a, ha, resolve_grows h'.grows hr rfl⟩
  · refine .inr ⟨?_, hnew⟩
    rcases h loc with hold | ⟨_, hd, _⟩
    · exact hold ▸ hnone
    · rw [hnone] at hd
      cases hd

theorem MadeAt.congr {other : FileSystem} (h : MadeAt as before after)
    (he : ∀ loc, other.get? loc = after.get? loc) : MadeAt as before other :=
  h.trans fun loc => .inl (he loc)

theorem madeAt_put {a : Address} {loc : Location} (hmem : a ∈ as)
    (hr : resolve before false a = .ok ⟨loc, none⟩)
    (hadmits : before.admits loc .directory = true) :
    MadeAt as before (before.put loc .directory) := by
  obtain ⟨hz, hne, hl, hw⟩ := resolve_ok_iff.mp hr
  have hnone : before.get? loc = none := hw.none_at rfl
  have hgrows : Grows before (before.put loc .directory) := by
    intro other e he
    have hother : other ≠ loc := by
      rintro rfl
      rw [hnone] at he
      cases he
    rw [get?_put hadmits, if_neg hother, he]
  intro other
  rw [get?_put hadmits]
  split
  · next he =>
    subst he
    have hnew : (before.put other .directory).get? other = some .directory := by
      rw [get?_put hadmits, if_pos rfl]
    exact .inr ⟨hnone, rfl, a, hmem, resolve_ok_iff.mpr ⟨hz, hne, hl, hw.made hgrows rfl hnew⟩⟩
  · exact .inl rfl

theorem keeps_madeAt_createDirectory {a : Address} (hmem : a ∈ as) :
    Keeps (MadeAt as before) (createDirectory a) := by
  intro fs hi
  rcases createDirectory_cases a fs with ⟨e, he⟩ | ⟨loc, hr, hadmits, he⟩
  · rwa [he]
  · rw [he]
    exact hi.trans (madeAt_put hmem hr hadmits)

theorem keeps_madeAt_createLineage {addresses : List Address} (h : ∀ a ∈ addresses, a ∈ as) :
    Keeps (MadeAt as before) (createLineage addresses) :=
  keeps_createLineage_of fun a ha => keeps_madeAt_createDirectory (h a ha)

/-- Files are as before, but for a root and the directories above it, which may be new. -/
def OnlyMade (root : Address) : FileSystem → FileSystem → Prop :=
  MadeAt (lineage root.written.length root)

theorem keeps_onlyMade (root : Address) :
    Keeps (OnlyMade root before) (createDirectories root) :=
  keeps_madeAt_createLineage fun _ h => h

/-- A workspace lies at a location, and the root of workspaces above it; nothing else is new. -/
def Opened (root : Address) (before : FileSystem) (w : Workspace) (loc : Location)
    (fs : FileSystem) : Prop :=
  ∃ rooted, OnlyMade root before rooted ∧ Site rooted w.address loc ∧ Confined rooted loc fs

theorem isProper_numbered (n : Nat) :
    FileName.isProper (Text.bytesOf (Workspace.numbered n)) = true := by
  have hstart : ∀ c ∈ "fluttergen-".toList, Lexing.isPlain c = true :=
    List.all_eq_true.mp (by decide)
  have hs : (Workspace.numbered n).toList =
      'f' :: ("luttergen-".toList ++ (List.replicate (6 - (Nat.toDigits 10 n).length) '0' ++
        Nat.toDigits 10 n)) := by
    simp [Workspace.numbered]
  refine isProper_bytesOf hs (by decide) fun c hc => ?_
  simp only [Workspace.numbered, String.toList_append, String.toList_ofList,
    List.mem_append] at hc
  rcases hc with hc | hc | hc
  · exact hstart c hc
  · rw [List.eq_of_mem_replicate hc]
    decide
  · exact Identifiers.isPlain_of_mem_toDigits hc

theorem isProper_freshName (draw : Nat) (taken : List FileName) :
    FileName.isProper (Text.bytesOf (Workspace.freshName draw taken)) = true := by
  simp only [Workspace.freshName]
  generalize hnames : (List.range (taken.length + 1)).map
    (fun n => Workspace.numbered (draw + n)) = names
  cases hf : names.find? fun s => FileName.ofText s ∉ taken with
  | none => exact isProper_numbered draw
  | some s =>
    have hs := List.mem_of_find?_eq_some hf
    rw [← hnames] at hs
    obtain ⟨n, _, rfl⟩ := List.mem_map.mp hs
    exact isProper_numbered (draw + n)

structure Founded (root : Address) (before rooted : FileSystem) (w : Workspace) (loc : Location)
    (fs : FileSystem) : Prop where
  only : OnlyMade root before rooted
  site : Site rooted w.address loc
  admits : rooted.admits loc .directory = true
  made : fs = rooted.put loc .directory
  within : ∃ there name, resolve rooted true root = .ok ⟨there, some .directory⟩ ∧
    loc = there ++ [name]

theorem Founded.confined {root : Address} {rooted fs : FileSystem} {w : Workspace} {loc : Location}
    (h : Founded root before rooted w loc fs) : Confined rooted loc fs :=
  h.made ▸ .start h.site h.admits

/-- A free place behind an address lies in the directory that the address leads to. -/
theorem resolve_of_join {root : Address} {fs : FileSystem} {n : FileName} {loc : Location}
    (hn : n.isProper = true) {p : Place}
    (hr : resolve fs true root = .ok p) (h : resolve fs false (root.join n) = .ok ⟨loc, none⟩) :
    p.entry = some .directory ∧ loc = p.location ++ [n] := by
  obtain ⟨horigin, hsteps⟩ := steps_join root hn
  obtain ⟨_, _, _, hw⟩ := resolve_ok_iff.mp hr
  obtain ⟨_, _, _, hw'⟩ := resolve_ok_iff.mp h
  rw [horigin] at hw'
  obtain ⟨left, mid, hmid, hlast⟩ := hw'.split hsteps (by simp)
  have hp : p = ⟨mid, some .directory⟩ :=
    Except.ok.inj ((walk_of_leads hw).symm.trans (walk_of_leads hmid))
  subst hp
  cases hlast with
  | absent => exact ⟨rfl, rfl⟩
  | enter _ _ h => cases h
  | through _ hr => simp at hr

theorem ends_create_founded (draw : Nat) (root : Address) (before : FileSystem) :
    Ends before (Workspace.create draw root) (OnlyMade root before)
      fun w fs => ∃ rooted loc, Founded root before rooted w loc fs := by
  unfold Workspace.create
  refine .mapError (.bind (S := fun _ => OnlyMade root before) ?_ fun _ rooted hroot => ?_)
  · have hkeep : Runs (OnlyMade root before) (fun _ => True) (createDirectories root) _ :=
      (keeps_onlyMade root).runs
    exact (hkeep.ends (.refl _ _) trivial).mono (fun _ h => h) fun _ _ h => h.1
  rw [Ends, runOn_bind, runOn_look]
  cases hr : resolve rooted true root with
  | error e => exact hroot
  | ok place =>
    have hne : root.written ≠ [] := (resolve_ok_iff.mp hr).2.1
    have hproper := isProper_freshName draw (rooted.names place.location)
    have hget (f : FileSystem → FileAction FileError Workspace) :
        (MonadState.get >>= f).runOn rooted = (f rooted).runOn rooted := rfl
    simp only [hget, runOn_bind]
    rcases createDirectory_cases (root.joinText (Workspace.freshName draw
      (rooted.names place.location))) rooted with ⟨e, he⟩ | ⟨loc, hfree, hadmits, he⟩
    · rw [he]
      exact hroot
    · rw [he]
      obtain ⟨hdir, hloc⟩ := resolve_of_join hproper hr hfree
      refine ⟨rooted, loc, hroot, ⟨settled_join hne hproper, hfree⟩, hadmits, rfl,
        place.location, _, ?_, hloc⟩
      rw [hr, ← hdir]

theorem ends_create (draw : Nat) (root : Address) (before : FileSystem) :
    Ends before (Workspace.create draw root) (OnlyMade root before)
      fun w fs => ∃ loc, Opened root before w loc fs := by
  refine (ends_create_founded draw root before).mono (fun _ h => h) ?_
  rintro w _ ⟨rooted, loc, h⟩
  exact ⟨loc, rooted, h.only, h.site, h.confined⟩

/-- What is left behind once a workspace that was still there has been given up. -/
structure Released (root : Address) (before : FileSystem) (w : Workspace)
    (opened after : FileSystem) : Prop where
  unchanged : OnlyMade root before after
  gone : ∃ loc, resolve opened false w.address = .ok ⟨loc, some .directory⟩ ∧
    after.get? loc = none

variable {root : Address} {w : Workspace} {loc : Location} {fs : FileSystem}

theorem runOn_discard (hs : Site before w.address loc) (h : Confined before loc fs) :
    w.discard.runOn fs = (.ok (), fs.removeTree loc) := by
  have hremove : (removeDirectory w.address).runOn fs = (.ok (), fs.removeTree loc) := by
    unfold removeDirectory
    rw [runOn_bind, runOn_look, h.resolve_home hs]
    rfl
  have hr : w.discard.runOn fs = (.ok (), ((removeDirectory w.address).runOn fs).2) := rfl
  rw [hr, hremove]

/-- All that has changed since a workspace was made goes with it. -/
theorem Opened.released (h : Opened root before w loc fs) :
    Released root before w fs (w.discard.runOn fs).2 := by
  obtain ⟨rooted, hroot, hs, hin⟩ := h
  have hne : loc ≠ [] := by
    rintro rfl
    have hempty := hs.empty
    rw [get?_root] at hempty
    cases hempty
  rw [runOn_discard hs hin]
  constructor
  · refine hroot.congr fun other => ?_
    rw [get?_removeTree hne]
    split
    · next hp => exact (get?_below hs.empty hp).symm
    · next hout => exact hin.outside other hout
  · refine ⟨loc, hin.resolve_home hs, ?_⟩
    rw [get?_removeTree hne, if_pos (List.prefix_refl loc)]

/-- Reading leaves all files as they are, so a last use by reading leaves nothing. -/
theorem Opened.lastUse {ε α : Type} (h : Opened root before w loc fs) {act : FileAction ε α}
    (hact : Keeps (· = fs) act) : Released root before w fs ((w.lastUse act).runOn fs).2 := by
  have hr : ((w.lastUse act).runOn fs).2 = (w.discard.runOn (act.runOn fs).2).2 := rfl
  have hsame : (act.runOn fs).2 = fs := hact fs rfl
  rw [hr, hsame]
  exact h.released

theorem runOn_keepOnSuccess {ε α : Type} (w : Workspace) (act : FileAction ε α)
    (fs : FileSystem) :
    (w.keepOnSuccess act).runOn fs =
      match act.runOn fs with
      | (.ok a, fs) => (.ok a, fs)
      | (.error e, fs) => (.error e, (w.discard.runOn fs).2) := by
  unfold Workspace.keepOnSuccess
  rw [runOn]
  cases act.runOn fs with
  | mk r after => cases r <;> rfl

theorem ends_keepOnSuccess {ε α : Type} {F : FileSystem → Prop} {S : α → FileSystem → Prop}
    {act : FileAction ε α} (h : Ends fs act (fun after => F (w.discard.runOn after).2) S) :
    Ends fs (w.keepOnSuccess act) F S := by
  unfold Ends at h ⊢
  rw [runOn_keepOnSuccess]
  cases hr : act.runOn fs with
  | mk r after =>
    rw [hr] at h
    cases r with
    | ok a => exact h
    | error e => exact h

def Ready (root : Address) (before : FileSystem) (archive : ExportedArchive)
    (fs : FileSystem) : Prop :=
  ∃ loc, Opened root before archive.workspace loc fs ∧
    Finished archive.workspace.address loc archive fs

theorem ends_run (x : Exporter) (request : Request) (before : FileSystem) :
    Ends before (x.run request) (OnlyMade x.workRoot before) (Ready x.workRoot before) := by
  have hsame : OnlyMade x.workRoot before before := .refl _ _
  unfold Exporter.run
  refine .bind (S := fun _ fs => fs = before) (ends_ofExcept hsame fun _ _ => rfl) ?_
  rintro _ fs rfl
  refine .bind (S := fun _ fs' => fs' = fs) (ends_ofExcept hsame fun _ _ => rfl) ?_
  rintro ⟨project, skipped⟩ _ rfl
  refine .bind (ends_create x.draw x.workRoot _) ?_
  rintro w opened ⟨loc, rooted, hroot, hs, hin⟩
  refine ends_keepOnSuccess ?_
  refine ((runs_build hs x project skipped).ends hin trivial).mono ?_ ?_
  · intro after hafter
    exact (Opened.released ⟨rooted, hroot, hs, hafter⟩).unchanged
  · rintro archive after ⟨hafter, hdone⟩
    have hw : archive.workspace.address = w.address := by rw [hdone.workspace]
    refine ⟨loc, ⟨rooted, hroot, hw ▸ hs, hafter⟩, ?_⟩
    rw [hw]
    exact ⟨hdone.workspace, hdone.holds⟩

variable {archive : ExportedArchive}

theorem keeps_peek {I : FileSystem → Prop} (archive : ExportedArchive) : Keeps I archive.peek :=
  .mapError (keeps_entryAt _)

/-- What lies where a finished archive was written is that archive, all of it. -/
theorem Ready.peek (h : Ready root before archive fs) {e : Entry}
    (he : (archive.peek.runOn fs).1 = .ok e) :
    ∃ es, e = .file (.archive es) ∧ es.length = archive.report.archiveEntries := by
  obtain ⟨loc, ⟨rooted, _, hs, hin⟩, hdone⟩ := h
  obtain ⟨es, hes, hcount⟩ := hdone.holds
  have haddress := archive_below hs.settled
  obtain ⟨place, hr, hentry⟩ := resolve_of_entryAt (mapError_ok_iff.mp he)
  rw [haddress] at hr
  rw [hin.resolve_below hs spelt_archive.ne_nil spelt_archive.proper hr, hes] at hentry
  cases hentry
  exact ⟨es, rfl, hcount⟩

theorem lastUse_result {ε α : Type} (w : Workspace) (act : FileAction ε α) (fs : FileSystem) :
    ((w.lastUse act).runOn fs).1 = (act.runOn fs).1 := rfl

/-- What a sink is offered, if the archive is read at all, is what lies where it was written. -/
theorem Ready.peek_of_send (h : Ready root before archive fs) {sink : Sink} {content : Content}
    {r : Except ExportError Unit}
    (he : ((archive.send sink).runOn fs).1 = .ok (content, r)) :
    archive.peek.runOn fs = (.ok (.file content), fs) := by
  have hsame : (archive.peek.runOn fs).2 = fs := keeps_peek (I := (· = fs)) archive fs rfl
  unfold ExportedArchive.send at he
  rw [lastUse_result] at he
  have hfirst {α : Type} (f : Entry → FileAction ExportError α) :
      (FileAction.mapError (.file archive.workspace.archive)
        (entryAt archive.workspace.archive) >>= f) = archive.peek >>= f := rfl
  rw [hfirst, runOn_bind] at he
  cases hp : archive.peek.runOn fs with
  | mk found after =>
    rw [hp] at he hsame
    obtain rfl : after = fs := hsame
    cases found with
    | error e => cases he
    | ok e =>
      obtain ⟨es, rfl, _⟩ := h.peek (by rw [hp])
      cases he
      rfl

theorem runOn_exportTo (x : Exporter) (request : Request) (sink : Sink) (before : FileSystem) :
    (x.exportTo request sink).run before =
      match (x.run request).runOn before with
      | (.error _, after) => ((none, .error ⟨⟩), after)
      | (.ok archive, opened) =>
        match (archive.send sink).runOn opened with
        | (.error _, after) => ((none, .error ⟨⟩), after)
        | (.ok (content, .error _), after) => ((some content, .error ⟨⟩), after)
        | (.ok (content, .ok ()), after) => ((some content, .ok archive.report), after) := by
  unfold Exporter.exportTo runOn
  simp only [bind, StateT.bind, StateT.run, ExceptT.run]
  cases x.run request before with
  | mk r opened =>
    cases r with
    | error e => rfl
    | ok archive =>
      dsimp only [StateT.bind]
      cases archive.send sink opened with
      | mk sent after =>
        cases sent with
        | error e => rfl
        | ok offered =>
          obtain ⟨content, outcome⟩ := offered
          cases outcome with
          | error e => rfl
          | ok _ => rfl

/-- However a finished archive is given up, its workspace goes and nothing else has changed. -/
structure Dissolves (root : Address) (before : FileSystem) (archive : ExportedArchive)
    (opened : FileSystem) : Prop where
  dropped : Released root before archive.workspace opened
    (archive.workspace.discard.runOn opened).2
  taken : Released root before archive.workspace opened (archive.take.runOn opened).2
  sent : ∀ sink, Released root before archive.workspace opened ((archive.send sink).runOn opened).2

theorem Ready.dissolves (h : Ready root before archive fs) : Dissolves root before archive fs := by
  obtain ⟨loc, hopened, _⟩ := h
  refine ⟨hopened.released, hopened.lastUse (.mapError (keeps_contentAt _)), fun sink => ?_⟩
  refine hopened.lastUse (.bind (.mapError (keeps_entryAt _)) fun e => ?_)
  split
  · exact .pure _
  · exact .pure _

/-- What a sink has been offered, if anything, is the archive that lay finished in its
workspace, with as many entries as its report says. -/
def Offers (archive : ExportedArchive) (opened : FileSystem) (offered : Option Content) : Prop :=
  ∀ content, offered = some content →
    archive.peek.runOn opened = (.ok (.file content), opened) ∧
      ∃ es, content = .archive es ∧ es.length = archive.report.archiveEntries

theorem Ready.offers (h : Ready root before archive fs) {sink : Sink} {content : Content}
    {r : Except ExportError Unit} (he : ((archive.send sink).runOn fs).1 = .ok (content, r)) :
    Offers archive fs (some content) := by
  rintro _ ⟨⟩
  have hpeek := h.peek_of_send he
  obtain ⟨es, hes, hcount⟩ := h.peek (e := .file content) (by rw [hpeek])
  cases hes
  exact ⟨hpeek, es, rfl, hcount⟩

theorem ends_exportTo (x : Exporter) (request : Request) (sink : Sink) (before : FileSystem) :
    Ends before (x.run request)
      (fun failed => (x.exportTo request sink).run before = ((none, .error ⟨⟩), failed))
      (fun archive opened =>
        Released x.workRoot before archive.workspace opened
          ((x.exportTo request sink).run before).2 ∧
        Offers archive opened ((x.exportTo request sink).run before).1.1) := by
  have hready := ends_run x request before
  unfold Ends at hready ⊢
  rw [runOn_exportTo]
  cases hr : (x.run request).runOn before with
  | mk r opened =>
    rw [hr] at hready
    cases r with
    | error e => rfl
    | ok archive =>
      have hgone := (Ready.dissolves hready).sent sink
      dsimp only
      cases hs : (archive.send sink).runOn opened with
      | mk sent after =>
        rw [hs] at hgone
        cases sent with
        | error e => exact ⟨hgone, fun _ he => nomatch he⟩
        | ok offered =>
          obtain ⟨content, outcome⟩ := offered
          cases outcome with
          | error e => exact ⟨hgone, Ready.offers hready (by rw [hs])⟩
          | ok _ => exact ⟨hgone, Ready.offers hready (by rw [hs])⟩

/-- Exports leave no trace. Wherever one fails, files are as they were, but for the root of
workspaces and the directories above it; the same holds after a success as soon as the archive is
given up, in whichever way. A sink is offered nothing before the archive is finished. -/
theorem exports_leave_no_trace (x : Exporter) (request : Request) (before : FileSystem) :
    Ends before (x.run request) (OnlyMade x.workRoot before) (Dissolves x.workRoot before) ∧
      Ends before (x.attempt request) (OnlyMade x.workRoot before)
        (Dissolves x.workRoot before) ∧
      ∀ sink, Ends before (x.run request)
        (fun failed => (x.exportTo request sink).run before = ((none, .error ⟨⟩), failed))
        (fun archive opened =>
          Released x.workRoot before archive.workspace opened
            ((x.exportTo request sink).run before).2 ∧
          Offers archive opened ((x.exportTo request sink).run before).1.1) := by
  have hrun : Ends before (x.run request) (OnlyMade x.workRoot before)
      (Dissolves x.workRoot before) :=
    (ends_run x request before).mono (fun _ h => h) fun _ _ h => h.dissolves
  exact ⟨hrun, hrun.mapError, fun sink => ends_exportTo x request sink before⟩

end Screenwright.Proofs.Cleanup
