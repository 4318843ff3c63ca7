import Screenwright.Proofs.Headings
import Screenwright.Proofs.Skeletons
import Screenwright.Proofs.Writes

namespace Screenwright.Proofs.Copies
open Files FileSystem FileAction Address Export
open Entries Listing Walks Addresses Running Confinement Trees Skeletons Cleanup Writes Headings

/-- Neither of two directories contains the other. -/
def Outside (there loc : Location) : Prop := ¬ there <+: loc ∧ ¬ loc <+: there

theorem Outside.not_prefix {there loc : Location} (h : Outside there loc) (names : Location) :
    ¬ loc <+: there ++ names := fun hp =>
  (List.prefix_or_prefix_of_prefix hp (List.prefix_append there names)).elim h.2 h.1

/-- A copy while it is made, seen from when its place had just been made. -/
structure Underway (made : FileSystem) (root dest : Address) (there loc : Location)
    (done : List Location) (fs : FileSystem) : Prop where
  source : resolve fs true root = .ok ⟨there, some .directory⟩
  target : Leads fs true linkLimit dest.origin (segments dest.written) ⟨loc, some .directory⟩
  based : fs.get? dest.origin = some .directory
  confined : Confined made loc fs
  tree : Toward (copied (inside there made)) (inside loc made) done (inside loc fs)

variable {before made fs after : FileSystem} {root dest b : Address} {there loc names : Location}
variable {done : List Location} {e : Entry} {content : Content}

theorem Underway.unchanged (h : Underway made root dest there loc done fs)
    (hout : Outside there loc) (names : Location) :
    fs.get? (there ++ names) = made.get? (there ++ names) :=
  h.confined.outside _ (hout.not_prefix names)

theorem Underway.heads (h : Underway made root dest there loc done fs)
    (hn : ∀ n ∈ names, n.isProper = true) :
    Heads fs (dest.joinLocation names) ⟨loc, names.map .name⟩ :=
  heads_joined h.based h.target hn h.confined.plain

/-- Directories that are made where the copy has them. -/
theorem Underway.cleared (h : Underway made root dest there loc done fs)
    (hn : ∀ n ∈ names, n.isProper = true) (hb : Trimmed b (dest.joinLocation names))
    (hdirs : ∀ other, other <+: names → copied (inside there made) other = some .directory)
    (hrun : (createDirectories b).runOn fs = (.ok (), after)) :
    Underway made root dest there loc (names :: done) after := by
  obtain ⟨hmade, hleads⟩ := (h.heads hn).created hb hrun
  have hgrows := hmade.grows
  have hnew : after.get? (loc ++ names) = some .directory := by
    have hstop := leads_directory hleads rfl (hgrows _ _ (h.heads hn).based)
    rwa [stop_names] at hstop
  have hinside : inside loc after = clear names (inside loc fs) := by
    funext other
    unfold clear
    split
    · next hp => exact get?_ancestor hnew ((List.prefix_append_right_inj loc).mpr hp)
    · next hp =>
      refine hmade.same fun hpassed => hp ?_
      obtain ⟨front, hfront, heq⟩ := passes_names hpassed
      exact List.append_cancel_left heq ▸ hfront
  have hconfined : Confined made loc after := by
    refine ⟨?_, hgrows _ _ h.confined.made, ?_⟩
    · intro other hout
      rw [← h.confined.outside other hout]
      refine hmade.same fun hpassed => hout ?_
      obtain ⟨front, _, rfl⟩ := passes_names hpassed
      exact List.prefix_append loc front
    · intro more target
      exact hmade.plain (h.confined.plain more target)
  exact ⟨resolve_grows hgrows h.source rfl, h.target.grows hgrows rfl, hgrows _ _ h.based,
    hconfined, hinside ▸ h.tree.clear hdirs⟩

/-- A file that is written where the copy has it. -/
theorem Underway.placed (h : Underway made root dest there loc done fs)
    (hcopy : copied (inside there made) names = some (.file content))
    (hwrote : Wrote b content (loc ++ names) fs after) :
    Underway made root dest there loc (names :: done) after := by
  have hsame := hwrote.same
  have hsource : resolve after true root = .ok ⟨there, some .directory⟩ := by
    obtain ⟨e, hr, he⟩ := hsame.resolve_ok h.source
    rwa [he.mpr rfl] at hr
  have htarget : Leads after true linkLimit dest.origin (segments dest.written)
      ⟨loc, some .directory⟩ := by
    obtain ⟨e, hleads, he⟩ := hsame.leads h.target
    rwa [he.mpr rfl] at hleads
  have hinside : inside loc after = place names (.file content) (inside loc fs) := by
    funext other
    unfold place
    split
    · next heq => exact heq ▸ hwrote.holds
    · next heq => exact hsame.elsewhere _ fun hloc => heq (List.append_cancel_left hloc)
  have hfree : inside loc fs names ≠ some .directory := by
    intro hd
    obtain ⟨_, hfile⟩ := hsame.first _ hd
    cases hfile
  have hconfined : Confined made loc after := by
    refine ⟨?_, hsame.kept h.confined.made (by simp), ?_⟩
    · intro other hout
      have hother : other ≠ loc ++ names := fun heq => hout ⟨names, heq.symm⟩
      rw [hsame.elsewhere other hother, h.confined.outside other hout]
    · intro more target
      by_cases heq : more = names
      · rw [heq, hwrote.holds]
        simp
      · rw [hsame.elsewhere _ fun hloc => heq (List.append_cancel_left hloc)]
        exact h.confined.plain more target
  exact ⟨hsource, htarget, hsame.kept h.based (by simp), hconfined,
    hinside ▸ h.tree.place hcopy hfree⟩

theorem trimmed_parent (dest : Address) (hne : names ≠ []) (hn : ∀ n ∈ names, n.isProper = true) :
    Trimmed ((dest.joinLocation names).parent?.getD dest) (dest.joinLocation names.dropLast) := by
  obtain ⟨front, n, rfl⟩ : ∃ front n, names = front ++ [n] :=
    ⟨names.dropLast, names.getLast hne, (List.dropLast_concat_getLast hne).symm⟩
  have hjoin : dest.joinLocation (front ++ [n]) = (dest.joinLocation front).join n :=
    List.foldl_append
  obtain ⟨p, hp, htrimmed⟩ := parent?_join (dest.joinLocation front) (hn n (by simp))
  rwa [hjoin, hp, Option.getD_some, List.dropLast_concat]

theorem Underway.step (h : Underway made root dest there loc done fs) (hout : Outside there loc)
    (hne : names ≠ []) (hn : ∀ n ∈ names, n.isProper = true)
    (he : inside there made names = some e)
    (hrun : (Skeleton.copyEntry root dest (names, e)).runOn fs = (.ok (), after)) :
    Underway made root dest there loc (names :: done) after := by
  unfold Skeleton.copyEntry at hrun
  cases e with
  | directory =>
    exact h.cleared hn (.refl _) (fun other => copied_directory he) (runOn_mapError_ok hrun)
  | link target =>
    cases hrun
    have hcopy : copied (inside there made) names = none := by
      rw [copied, if_neg hne, he]
      rfl
    exact ⟨h.source, h.target, h.based, h.confined, h.tree.skip hcopy⟩
  | file content =>
    obtain ⟨_, opened, hparent, hrun⟩ := runOn_bind_ok hrun
    have hfront (n : FileName) (hmem : n ∈ names.dropLast) : n.isProper = true :=
      hn n ((List.dropLast_sublist names).subset hmem)
    have habove := h.cleared hfront (trimmed_parent dest hne hn)
      (fun other => copied_parent he hne) (runOn_mapError_ok hparent)
    have hopened : Underway made root dest there loc done opened :=
      ⟨habove.source, habove.target, habove.based, habove.confined, habove.tree.drop⟩
    obtain ⟨spot, emptied, found, hempty, hread, hwrote⟩ := copyFile_ok (runOn_mapError_ok hrun)
    obtain rfl : spot = loc ++ names := by
      obtain ⟨_, hled⟩ := hempty.led
      exact congrArg Place.location (resolve_joined hopened.target hne hn
        (fun more _ => hopened.confined.plain more) hopened.confined.made hled)
    have hfile : emptied.get? (there ++ names) = some (.file content) := by
      have hother : there ++ names ≠ loc ++ names := fun heq => hout.not_prefix names ⟨_, heq.symm⟩
      rw [hempty.same.elsewhere _ hother, hopened.unchanged hout]
      exact he
    obtain ⟨e, hroot, hdir⟩ := hempty.same.resolve_ok hopened.source
    rw [hdir.mpr rfl] at hroot
    obtain rfl : found = content := content_joined hroot hne hn hfile hread
    refine hopened.placed ?_ hwrote
    rw [copied, if_neg hne, he]
    rfl

theorem Underway.steps {entries : List (Location × Entry)}
    (h : Underway made root dest there loc done fs) (hout : Outside there loc)
    (hmem : ∀ e ∈ entries, e ∈ made.below there)
    (hrun : (entries.forM (Skeleton.copyEntry root dest)).runOn fs = (.ok (), after)) :
    Underway made root dest there loc ((entries.map Prod.fst).reverse ++ done) after := by
  induction entries generalizing fs done with
  | nil =>
    cases hrun
    exact h
  | cons entry entries ih =>
    obtain ⟨hentry, hentries⟩ := List.forall_mem_cons.mp hmem
    obtain ⟨_, next, hfirst, hrest⟩ := runOn_bind_ok hrun
    have hproper := (named_below made there entry hentry).2
    obtain ⟨hne, hget⟩ := mem_below_iff.mp hentry
    have hnext := h.step hout hne hproper hget hfirst
    rw [List.map_cons, List.reverse_cons, List.append_assoc]
    exact ih hnext hentries hrest

/-- Where a copy is to go: what an address is headed for, without links there and below, and such
that no directory is missing on the route in what is copied or in the place itself. -/
structure Destination (fs : FileSystem) (dest : Address) (there : Location) (route : Route) :
    Prop where
  heads : Heads fs dest route
  outside : Outside there route.stop
  plain : ∀ names target, fs.get? (route.stop ++ names) ≠ some (.link target)
  aside : ∀ other, route.Passes other → fs.get? other = none →
    ¬ there <+: other ∧ (route.stop <+: other → other = route.stop)

/-- A directory has been copied to where an address leads. -/
structure Copied (before after : FileSystem) (dest : Address) (there : Location) (route : Route) :
    Prop where
  leads : Leads after true linkLimit dest.origin (segments dest.written)
    ⟨route.stop, some .directory⟩
  directories : ∀ names, before.get? (there ++ names) = some .directory →
    after.get? (route.stop ++ names) = some .directory
  files : ∀ names ≠ [], ∀ content, before.get? (there ++ names) = some (.file content) →
    after.get? (route.stop ++ names) = some (.file content)
  /-- What else lies in the place stays, also where the directory has links. -/
  others : ∀ names ≠ [],
    (∀ e, before.get? (there ++ names) = some e → ∃ target, e = .link target) →
      after.get? (route.stop ++ names) = before.get? (route.stop ++ names)
  original : ∀ names, after.get? (there ++ names) = before.get? (there ++ names)
  /-- Elsewhere only directories on the route may be new. -/
  elsewhere : ∀ other, ¬ route.stop <+: other → after.get? other = before.get? other ∨
    before.get? other = none ∧ after.get? other = some .directory ∧ route.Passes other

variable {route : Route}

/-- Where an address goes on by names only, what is missing lies above the place. -/
theorem Destination.of_names (hheads : Heads fs dest ⟨loc, names.map .name⟩)
    (hout : Outside there (loc ++ names))
    (hplain : ∀ more target, fs.get? (loc ++ names ++ more) ≠ some (.link target)) :
    Destination fs dest there ⟨loc, names.map .name⟩ := by
  rw [← stop_names] at hout hplain
  refine ⟨hheads, hout, hplain, fun other hp _ => ?_⟩
  rw [stop_names] at hout ⊢
  obtain ⟨front, hfront, rfl⟩ := passes_names hp
  have habove := (List.prefix_append_right_inj loc).mpr hfront
  exact ⟨fun hthere => hout.1 (hthere.trans habove), fun hstop =>
    habove.eq_of_length_le hstop.length_le⟩

/-- Once its place has been made, nothing of a copy is done. -/
theorem underway_start (hr : resolve before true root = .ok ⟨there, some .directory⟩)
    (hdest : Destination before dest there route)
    (hrun : (createDirectories dest).runOn before = (.ok (), made)) :
    Made route.Passes before made ∧ Underway made root dest there route.stop [] made := by
  obtain ⟨hmade, hleads⟩ := hdest.heads.created (.refl dest) hrun
  have hbased := hmade.grows _ _ hdest.heads.based
  have hconfined : Confined made route.stop made := by
    refine ⟨fun _ _ => rfl, leads_directory hleads rfl hbased, ?_⟩
    intro names target
    exact hmade.plain (hdest.plain names target)
  exact ⟨hmade, resolve_grows hmade.grows hr rfl, hleads, hbased, hconfined, .start _ _⟩

/-- A copy is finished when all entries have been copied. -/
theorem Underway.finished (hdest : Destination before dest there route)
    (hmade : Made route.Passes before made)
    (h : Underway made root dest there route.stop
      (((made.below there).map Prod.fst).reverse ++ []) after) :
    Copied before after dest there route := by
  have haside {other : Location}
      (hat : there <+: other ∨ route.stop <+: other ∧ other ≠ route.stop) :
      made.get? other = before.get? other := by
    refine (hmade other).resolve_right fun ⟨hnone, _, hp⟩ => ?_
    obtain ⟨hthere, hstop⟩ := hdest.aside other hp hnone
    exact hat.elim hthere fun hin => hin.2 (hstop hin.1)
  have hsource (names : Location) : made.get? (there ++ names) = before.get? (there ++ names) :=
    haside (.inl (List.prefix_append there names))
  have hcopied : copied (inside there made) = copied (inside there before) :=
    congrArg copied (funext hsource)
  have hresult {names : Location} (hne : names ≠ []) : after.get? (route.stop ++ names) =
      (copied (inside there before) names).or (before.get? (route.stop ++ names)) := by
    have hdone (e : Entry) (he : copied (inside there made) names = some e) :
        names ∈ ((made.below there).map Prod.fst).reverse ++ [] := by
      rw [copied, if_neg hne] at he
      have hget := (Option.filter_eq_some_iff.mp he).1
      rw [List.append_nil, List.mem_reverse]
      exact List.mem_map_of_mem (mem_below_iff.mpr ⟨hne, hget⟩)
    have hold : inside route.stop made names = before.get? (route.stop ++ names) :=
      haside (.inr ⟨List.prefix_append _ _, by simpa using hne⟩)
    have hnames := h.tree.eq hdone
    rwa [onto, hold, hcopied] at hnames
  constructor
  case leads => exact h.target
  case directories =>
    intro names hd
    by_cases hne : names = []
    · rw [hne, List.append_nil]
      exact h.confined.made
    · rw [hresult hne, copied, if_neg hne, inside, hd]
      rfl
  case files =>
    intro names hne content hf
    rw [hresult hne, copied, if_neg hne, inside, hf]
    rfl
  case others =>
    intro names hne hlink
    rw [hresult hne, copied, if_neg hne, inside]
    cases he : before.get? (there ++ names) with
    | none => rfl
    | some e =>
      obtain ⟨target, rfl⟩ := hlink e he
      rfl
  case original =>
    intro names
    rw [h.unchanged hdest.outside, hsource]
  case elsewhere =>
    intro other hother
    rw [h.confined.outside other hother]
    exact hmade other

/-- A directory that is copied to a place outside it is put onto what lies there. Links in it are
left out, nothing else changes, and without a directory to copy nothing happens at all. -/
theorem materialize_directory {r : Except ExportError Unit}
    (h : ((Skeleton.directory root).materialize dest).runOn before = (r, after)) :
    ((∀ there, resolve before true root ≠ .ok ⟨there, some .directory⟩) →
      r = .error (.noTemplate root) ∧ after = before) ∧
    ∀ there route, resolve before true root = .ok ⟨there, some .directory⟩ →
      Destination before dest there route → r = .ok () → Copied before after dest there route := by
  obtain ⟨found, hlook, hfound⟩ := isDirectory_iff (ε := ExportError) root before
  unfold Skeleton.materialize at h
  rw [runOn_bind, hlook] at h
  cases found with
  | false =>
    have hnone (there : Location) : resolve before true root ≠ .ok ⟨there, some .directory⟩ :=
      fun hr => nomatch hfound.mpr ⟨there, hr⟩
    cases h
    exact ⟨fun _ => ⟨rfl, rfl⟩, fun there _ hr => absurd hr (hnone there)⟩
  | true =>
    obtain ⟨there, hr⟩ := hfound.mp rfl
    refine ⟨fun hnone => absurd hr (hnone there), ?_⟩
    rintro there' route hr' hdest rfl
    obtain rfl : there = there' := by simpa [hr] using hr'
    obtain ⟨_, made, hmake, h⟩ := runOn_bind_ok h
    obtain ⟨entries, listed, hlist, hcopy⟩ := runOn_bind_ok h
    obtain ⟨hmade, hstart⟩ := underway_start hr hdest (runOn_mapError_ok hmake)
    have hlisted := (runOn_mapError_ok hlist).symm.trans (runOn_listTree hstart.source)
    obtain ⟨rfl, rfl⟩ : entries = made.below there ∧ listed = made := by simpa using hlisted
    exact (hstart.steps hdest.outside (fun _ hmem => hmem) hcopy).finished hdest hmade

/-- A directory with a file, a link and another directory that has a file, and next to it one with
an older version of the first file and a file of its own. -/
def versions : FileSystem :=
  [([Text.bytesOf "t"], .directory), ([Text.bytesOf "t", Text.bytesOf "a"], .file (.ofText "new")),
    ([Text.bytesOf "t", Text.bytesOf "b"], .directory),
    ([Text.bytesOf "t", Text.bytesOf "b", Text.bytesOf "c"], .file (.ofText "more")),
    ([Text.bytesOf "t", Text.bytesOf "l"], .link (Text.bytesOf "b")),
    ([Text.bytesOf "d"], .directory), ([Text.bytesOf "d", Text.bytesOf "a"], .file (.ofText "old")),
    ([Text.bytesOf "d", Text.bytesOf "e"], .file (.ofText "own"))].foldl
    (fun fs (e : Location × Entry) => fs.put e.1 e.2) ∅

def directory? (fs : FileSystem) (a : Address) : Option Location :=
  match resolve fs true a with
  | .ok ⟨there, some .directory⟩ => some there
  | _ => none

theorem directory?_iff :
    directory? fs b = some loc ↔ resolve fs true b = .ok ⟨loc, some .directory⟩ := by
  unfold directory?
  constructor
  · intro h
    split at h
    · next hr =>
      cases h
      exact hr
    · cases h
  · intro h
    rw [h]

def linkless (fs : FileSystem) (loc : Location) : Bool :=
  fs.entries.all fun e => match e.2 with
    | .link _ => !loc.isPrefixOf e.1
    | _ => true

theorem not_link_of_linkless (h : linkless fs loc = true) (hne : loc ≠ []) (names : Location)
    (target : List UInt8) : fs.get? (loc ++ names) ≠ some (.link target) := by
  intro hlink
  have hentry := List.all_eq_true.mp h _ (mem_of_get? (by simp [hne]) hlink)
  simp [List.isPrefixOf_iff_prefix.mpr (List.prefix_append loc names)] at hentry

def treeRoot : Address := ⟨[], Text.bytesOf "/t"⟩

def olderCopy : Address := ⟨[], Text.bytesOf "/d/./"⟩

def fileRoot : Address := ⟨[], Text.bytesOf "/t/a"⟩

theorem materialize_directory_versions :
    (∃ after,
      ((Skeleton.directory treeRoot).materialize olderCopy).runOn versions = (.ok (), after) ∧
      Copied versions after olderCopy [Text.bytesOf "t"] ⟨[Text.bytesOf "d"], []⟩) ∧
    ((Skeleton.directory fileRoot).materialize olderCopy).runOn versions =
      (.error (.noTemplate fileRoot), versions) := by
  have hroot := directory?_iff.mp
    (by decide +kernel : directory? versions treeRoot = some [Text.bytesOf "t"])
  have hplace := directory?_iff.mp
    (by decide +kernel : directory? versions olderCopy = some [Text.bytesOf "d"])
  have hnone : directory? versions fileRoot = none := by decide +kernel
  have hlinkless : linkless versions [Text.bytesOf "d"] = true := by decide +kernel
  have hplain := not_link_of_linkless hlinkless (List.cons_ne_nil _ _)
  have hout : Outside [Text.bytesOf "t"] [Text.bytesOf "d"] :=
    ⟨by decide +kernel, by decide +kernel⟩
  have horigin : olderCopy.origin = [] := by decide +kernel
  have hheads : Heads versions olderCopy ⟨[Text.bytesOf "d"], []⟩ := by
    refine ⟨horigin ▸ get?_root versions, ⟨_, (List.append_nil _).symm,
      (resolve_ok_iff.mp hplace).2.2.2⟩, fun other hp => ?_⟩
    obtain ⟨front, _, rfl⟩ := @passes_names [Text.bytesOf "d"] [] other hp
    exact hplain front
  have hdest : Destination versions olderCopy [Text.bytesOf "t"] ⟨[Text.bytesOf "d"], []⟩ :=
    @Destination.of_names _ olderCopy [Text.bytesOf "t"] [Text.bytesOf "d"] [] hheads hout hplain
  constructor
  · have hdone :
        (((Skeleton.directory treeRoot).materialize olderCopy).runOn versions).1.isOk = true := by
      decide +kernel
    cases hrun : ((Skeleton.directory treeRoot).materialize olderCopy).runOn versions with
    | mk r after =>
      rw [hrun] at hdone
      cases r with
      | error e => cases hdone
      | ok u => exact ⟨after, rfl, (materialize_directory hrun).2 _ _ hroot hdest rfl⟩
  · cases hrun : ((Skeleton.directory fileRoot).materialize olderCopy).runOn versions with
    | mk r after =>
      obtain ⟨rfl, rfl⟩ := (materialize_directory hrun).1 fun there hr => by
        rw [directory?_iff.mpr hr] at hnone
        cases hnone
      rfl

end Screenwright.Proofs.Copies
