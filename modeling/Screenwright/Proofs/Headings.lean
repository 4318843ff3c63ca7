import Screenwright.Proofs.Cleanup
import Screenwright.Proofs.Trees

namespace Screenwright.Proofs.Headings
open Files FileSystem FileAction Address Entries Walks Addresses Running Trees Cleanup

theorem segments_slash (bytes : List UInt8) : segments (bytes ++ [slash]) = segments bytes := by
  rw [segments_append]
  exact List.append_nil _

/-- What is cut off at the end of an address are steps that stay where they are. -/
theorem segments_trimEnd (reversed : List UInt8) :
    ∃ count, segments reversed.reverse =
      segments (trimEnd reversed).reverse ++ List.replicate count .here := by
  fun_induction trimEnd reversed with
  | case1 => exact ⟨0, by simp⟩
  | case2 reversed ih =>
    obtain ⟨count, ih⟩ := ih
    exact ⟨count, by rw [List.reverse_cons, segments_slash, ih]⟩
  | case3 b reversed _ hdot ih =>
    obtain ⟨count, ih⟩ := ih
    obtain ⟨rfl, hslash⟩ := hdot
    obtain ⟨before, rfl⟩ := List.head?_eq_some_iff.mp hslash
    have hsteps : segments (dot :: slash :: before).reverse =
        segments (slash :: before).reverse ++ [.here] := by
      rw [List.reverse_cons, List.reverse_cons, segments_slash, List.append_assoc]
      exact segments_append _ _
    exact ⟨count + 1, by rw [hsteps, ih, List.append_assoc, List.replicate_succ']⟩
  | case4 => exact ⟨0, by simp⟩

theorem trimEnd_suffix (reversed : List UInt8) : trimEnd reversed <:+ reversed := by
  fun_induction trimEnd reversed with
  | case1 | case4 => exact List.suffix_refl _
  | case2 reversed ih | case3 b reversed _ _ ih => exact ih.trans (List.suffix_cons _ _)

/-- What is kept of an address for the one above it. -/
def kept (a : Address) : List UInt8 :=
  (trimEnd ((trimEnd a.written.reverse).dropWhile (· ≠ slash))).reverse

theorem kept_prefix (a : Address) : kept a <+: a.written := by
  have hsuffix := (trimEnd_suffix _).trans
    ((List.dropWhile_suffix (· ≠ slash)).trans (trimEnd_suffix a.written.reverse))
  have hprefix := List.reverse_prefix.mpr hsuffix
  rwa [List.reverse_reverse] at hprefix

theorem parent?_kept {a p : Address} (h : a.parent? = some p) :
    p.origin = a.origin ∧ segments p.written = segments (kept a) := by
  have hp : p = { a with written :=
      if (kept a).isEmpty ∧ isAbsolute a.written then [slash] else kept a } := by
    unfold parent? at h
    unfold kept
    split at h
    · cases h
    · next htrimmed =>
      exact (Option.some.inj h).symm
  rw [hp]
  split
  · next hroot =>
    rw [List.isEmpty_iff] at hroot
    have hslash : isAbsolute [slash] = true := rfl
    exact ⟨by simp [origin, hslash, hroot.2], by rw [hroot.1]; rfl⟩
  · next hroot =>
    refine ⟨?_, rfl⟩
    have habs : isAbsolute (kept a) = isAbsolute a.written := by
      obtain ⟨more, hmore⟩ := kept_prefix a
      cases hkept : kept a with
      | nil => simpa [isAbsolute, hkept] using hroot
      | cons b bs => simp [isAbsolute, ← hmore, hkept]
    simp [origin, habs]

theorem segments_kept (a : Address) : segments (kept a) <+: segments a.written := by
  obtain ⟨count, hall⟩ := segments_trimEnd a.written.reverse
  rw [List.reverse_reverse] at hall
  rw [hall, kept]
  generalize trimEnd a.written.reverse = trimmed
  refine List.IsPrefix.trans ?_ (List.prefix_append _ _)
  have hparts := List.takeWhile_append_dropWhile (p := (· ≠ slash)) (l := trimmed)
  have hhead := List.head?_dropWhile_not (· ≠ slash) trimmed
  cases hrest : trimmed.dropWhile (· ≠ slash) with
  | nil => exact List.nil_prefix
  | cons b rest =>
    rw [hrest] at hparts hhead
    obtain rfl : b = slash := by simpa using hhead
    obtain ⟨count, hrest⟩ := segments_trimEnd (slash :: rest)
    rw [List.reverse_cons, segments_slash] at hrest
    rw [← hparts, List.reverse_append, List.reverse_cons, List.append_assoc, List.singleton_append,
      segments_append, hrest, List.append_assoc]
    exact List.prefix_append _ _

/-- Only steps that stay where they are have nothing above them. -/
theorem parent?_none {a : Address} (h : a.parent? = none) :
    ∃ count, segments a.written = List.replicate count .here := by
  obtain ⟨count, hall⟩ := segments_trimEnd a.written.reverse
  unfold parent? at h
  split at h
  · next htrimmed =>
    rw [htrimmed, List.reverse_reverse] at hall
    exact ⟨count, hall⟩
  · cases h

theorem lineage_steps {count : Nat} {a b : Address} (h : b ∈ lineage count a) :
    b.origin = a.origin ∧ segments b.written <+: segments a.written := by
  induction count generalizing a with
  | zero => cases h
  | succ count ih =>
    unfold lineage at h
    split at h
    · cases h
    · next p hp =>
      obtain ⟨horigin, hsteps⟩ := parent?_kept hp
      rcases List.mem_cons.mp h with rfl | hmem
      · exact ⟨rfl, List.prefix_refl _⟩
      · obtain ⟨horigin', hsteps'⟩ := ih hmem
        exact ⟨horigin'.trans horigin, hsteps'.trans (hsteps ▸ segments_kept a)⟩

/-- What is kept in front of a name behind an address is that address, but for steps that stay. -/
theorem kept_join (a : Address) {n : FileName} (hn : n.isProper = true) :
    ∃ count, segments a.written =
      segments (kept (a.join n)) ++ List.replicate count .here := by
  by_cases hne : a.written = []
  · have hjoin : a.join n = { a with written := n } := if_pos (.inr hne)
    have htrimmed : trimEnd n.reverse = n.reverse := trimEnd_name hn []
    have hdrop : n.reverse.dropWhile (· ≠ slash) = [] := by
      rw [← List.append_nil n.reverse, List.dropWhile_append_of_pos]
      · rfl
      · intro b hb
        simpa using ((isProper_iff.mp hn).2.2.2 b (List.mem_reverse.mp hb)).1
    refine ⟨0, ?_⟩
    rw [hjoin, kept, htrimmed, hdrop, hne]
    rfl
  · obtain ⟨_, hsteps⟩ := steps_join a hn
    have hsettled := settled_join hne hn
    obtain ⟨before, m, hwritten, hm⟩ := id hsettled
    have hbefore : segments before = segments a.written := by
      rw [hwritten, segments_append, segments_name hm] at hsteps
      exact (List.append_inj' hsteps rfl).1
    obtain ⟨count, htrimmed⟩ := segments_trimEnd before.reverse
    refine ⟨count, ?_⟩
    rw [kept, hsettled.trimEnd, hwritten, dropWhile_name hm, trimEnd, if_pos rfl, ← hbefore,
      ← htrimmed, List.reverse_reverse]

/-- An address without some of the steps at its end that stay where they are. -/
def Trimmed (b a : Address) : Prop :=
  b.origin = a.origin ∧
    ∃ count, segments a.written = segments b.written ++ List.replicate count .here

theorem Trimmed.refl (a : Address) : Trimmed a a := ⟨rfl, 0, (List.append_nil _).symm⟩

theorem parent?_join (a : Address) {n : FileName} (hn : n.isProper = true) :
    ∃ p, (a.join n).parent? = some p ∧ Trimmed p a := by
  obtain ⟨horigin, hsteps⟩ := steps_join a hn
  cases hp : (a.join n).parent? with
  | none =>
    obtain ⟨count, hstay⟩ := parent?_none hp
    have hname : Segment.name n ∈ List.replicate count Segment.here := by
      rw [← hstay, hsteps]
      exact List.mem_append_right _ List.mem_cons_self
    cases List.eq_of_mem_replicate hname
  | some p =>
    obtain ⟨horigin', hsteps'⟩ := parent?_kept hp
    obtain ⟨count, hkept⟩ := kept_join a hn
    exact ⟨p, rfl, horigin'.trans horigin, count, hsteps' ▸ hkept⟩

structure Route where
  start : Location
  steps : List Segment

def Route.stop (route : Route) : Location := route.steps.foldl stepFrom route.start

/-- The places on a route, from its start to its stop. -/
def Route.Passes (route : Route) (other : Location) : Prop :=
  ∃ front, front <+: route.steps ∧ other = front.foldl stepFrom route.start

section
variable {fs fs' : FileSystem} {follow : Bool} {links : Nat} {here there names other : Location}
variable {steps more : List Segment} {p q : Place}

theorem stop_names (here names : Location) :
    Route.stop ⟨here, names.map .name⟩ = here ++ names := foldl_stepFrom here names

theorem passes_names (h : Route.Passes ⟨here, names.map .name⟩ other) :
    ∃ front, front <+: names ∧ other = here ++ front := by
  obtain ⟨_, ⟨rest, hrest⟩, rfl⟩ := h
  obtain ⟨front, more, rfl, rfl, _⟩ := List.map_eq_append_iff.mp hrest.symm
  exact ⟨front, List.prefix_append front more, stop_names here front⟩

theorem leads_unique (h : Leads fs follow links here steps p)
    (h' : Leads fs follow links here steps q) : p = q :=
  Except.ok.inj ((walk_of_leads h).symm.trans (walk_of_leads h'))

/-- Where no links are on the way, steps to a directory lead where their names do. -/
theorem leads_moves
    (hl : ∀ other, Route.Passes ⟨here, steps⟩ other → ∀ target, fs.get? other ≠ some (.link target))
    (h : Leads fs follow links here steps p) (hd : p.entry = some .directory) :
    p.location = Route.stop ⟨here, steps⟩ := by
  induction h with
  | stop => rfl
  | stay _ ih | up _ ih =>
    refine ih (fun other ⟨front, hfront, he⟩ => ?_) hd
    exact hl other ⟨_ :: front, List.cons_prefix_cons.mpr ⟨rfl, hfront⟩, he⟩
  | absent | file => cases hd
  | link => cases hd
  | enter _ _ _ ih =>
    refine ih (fun other ⟨front, hfront, he⟩ => ?_) hd
    exact hl other ⟨_ :: front, List.cons_prefix_cons.mpr ⟨rfl, hfront⟩, he⟩
  | @through links here n target rest p hn hr hg =>
    exact absurd hg (hl _ ⟨[.name n], List.cons_prefix_cons.mpr ⟨rfl, List.nil_prefix⟩, rfl⟩ target)

theorem leads_directory (h : Leads fs follow links here steps p) (hd : p.entry = some .directory)
    (hhere : fs.get? here = some .directory) : fs.get? p.location = some .directory := by
  induction h with
  | stop => exact hhere
  | stay _ ih => exact ih hd hhere
  | @up links here rest p _ ih =>
    refine ih hd ?_
    by_cases hne : here = []
    · rw [hne]
      exact get?_root fs
    · exact get?_dropLast hne hhere
  | absent | file => cases hd
  | link => cases hd
  | enter _ hg _ ih => exact ih hd hg
  | through _ _ _ _ ih =>
    refine ih hd ?_
    split
    · exact get?_root fs
    · exact hhere

theorem leads_front (h : Leads fs true links here (steps ++ more) p)
    (hd : p.entry = some .directory) :
    ∃ mid, Leads fs true links here steps ⟨mid, some .directory⟩ := by
  by_cases hmore : more = []
  · rw [hmore, List.append_nil] at h
    obtain ⟨there, entry⟩ := p
    obtain rfl : entry = some .directory := hd
    exact ⟨there, h⟩
  · obtain ⟨_, mid, hmid, _⟩ := h.split rfl hmore
    exact ⟨mid, hmid⟩

theorem leads_stay (count : Nat) :
    Leads fs follow links here (List.replicate count .here) ⟨here, some .directory⟩ := by
  induction count with
  | zero => exact .stop
  | succ count ih => exact .stay ih

/-- From where steps lead to, more steps lead on where their names do. -/
theorem leads_on (hhere : Leads fs true links here steps ⟨there, some .directory⟩)
    (hl : ∀ other, Route.Passes ⟨there, more⟩ other → ∀ target, fs.get? other ≠ some (.link target))
    (h : Leads fs true links here (steps ++ more) p) (hd : p.entry = some .directory) :
    p.location = Route.stop ⟨there, more⟩ := by
  obtain ⟨left, hwalk⟩ := hhere.append rfl
  by_cases hne : more = []
  · subst hne
    rw [List.append_nil] at h
    exact congrArg Place.location (leads_unique h hhere)
  · have hon := hwalk true more hne
    rw [walk_of_leads h] at hon
    exact leads_moves hl (leads_of_walk hon.symm) hd

theorem leads_stay_on (h : Leads fs true links here steps ⟨there, some .directory⟩) (count : Nat) :
    Leads fs true links here (steps ++ List.replicate count .here) ⟨there, some .directory⟩ := by
  obtain ⟨left, hwalk⟩ := h.append rfl
  by_cases hcount : List.replicate count Segment.here = []
  · rwa [hcount, List.append_nil]
  · exact leads_of_walk ((hwalk true _ hcount).trans (walk_of_leads (leads_stay count)))

end

/-- An address leads to a directory, and on from there by a route without links. What lies on the
route may be missing. -/
structure Heads (fs : FileSystem) (a : Address) (route : Route) : Prop where
  based : fs.get? a.origin = some .directory
  reaches : ∃ steps, segments a.written = steps ++ route.steps ∧
    Leads fs true linkLimit a.origin steps ⟨route.start, some .directory⟩
  plain : ∀ other, route.Passes other → ∀ target, fs.get? other ≠ some (.link target)

/-- Files are as before, but for directories that are new in some places where nothing was. -/
def Made (new : Location → Prop) (before after : FileSystem) : Prop :=
  ∀ loc, after.get? loc = before.get? loc ∨
    before.get? loc = none ∧ after.get? loc = some .directory ∧ new loc

variable {new : Location → Prop} {fs fs' : FileSystem} {a b : Address} {loc other : Location}
variable {route : Route}

theorem Made.grows (h : Made new fs fs') : Grows fs fs' := by
  intro other e he
  rcases h other with hsame | ⟨hnone, _⟩
  · rw [hsame, he]
  · rw [hnone] at he
    cases he

theorem Made.plain (h : Made new fs fs') {target : List UInt8}
    (hl : fs.get? other ≠ some (.link target)) : fs'.get? other ≠ some (.link target) := by
  rcases h other with hsame | ⟨_, hd, _⟩
  · rwa [hsame]
  · simp [hd]

theorem Made.same (h : Made new fs fs') (hnew : ¬ new other) : fs'.get? other = fs.get? other :=
  (h other).resolve_right fun hadded => hnew hadded.2.2

/-- While directories are made, an address above that leads to one leads to a place on the route, or
to a directory that was there before. -/
theorem Heads.above (h : Heads fs a route) (hmade : Made new fs fs') (horigin : b.origin = a.origin)
    (hsteps : segments b.written <+: segments a.written)
    (hb : Leads fs' true linkLimit b.origin (segments b.written) ⟨other, some .directory⟩) :
    route.Passes other ∨ fs.get? other = some .directory := by
  obtain ⟨steps, hall, hstart⟩ := h.reaches
  rw [hall] at hsteps
  rw [horigin] at hb
  rcases List.prefix_or_prefix_of_prefix hsteps (List.prefix_append steps route.steps) with
    ⟨rest, rfl⟩ | ⟨front, hfront⟩
  · obtain ⟨mid, hmid⟩ := leads_front hstart rfl
    cases leads_unique hb (hmid.grows hmade.grows rfl)
    exact .inr (leads_directory hmid rfl h.based)
  · rw [← hfront] at hb hsteps
    have hpassed := (List.prefix_append_right_inj steps).mp hsteps
    have hplain (other : Location) (hp : Route.Passes ⟨route.start, front⟩ other)
        (target : List UInt8) : fs'.get? other ≠ some (.link target) := by
      obtain ⟨more, hmore, he⟩ := hp
      exact hmade.plain (h.plain other ⟨more, hmore.trans hpassed, he⟩ target)
    exact .inl ⟨front, hpassed, leads_on (hstart.grows hmade.grows rfl) hplain hb rfl⟩

/-- Once its directories are there, an address leads to where it was headed for. -/
theorem Heads.arrives (h : Heads fs a route) (hmade : Made new fs fs')
    (ha : Leads fs' true linkLimit a.origin (segments a.written) ⟨other, some .directory⟩) :
    other = route.stop := by
  obtain ⟨steps, hall, hstart⟩ := h.reaches
  rw [hall] at ha
  exact leads_on (hstart.grows hmade.grows rfl)
    (fun other hp target => hmade.plain (h.plain other hp target)) ha rfl

theorem resolve_directory {there : Location}
    (h : resolve fs false a = .ok ⟨there, some .directory⟩) (follow : Bool) :
    resolve fs follow a = .ok ⟨there, some .directory⟩ := by
  obtain ⟨hz, hne, hl, hw⟩ := resolve_ok_iff.mp h
  exact resolve_ok_iff.mpr ⟨hz, hne, hl, hw.to_directory rfl follow⟩

def Found (a : Address) (fs : FileSystem) : Prop :=
  ∃ there, resolve fs true a = .ok ⟨there, some .directory⟩

theorem runs_createDirectory_found :
    Runs (fun _ => True) (fun _ => True) (createDirectory a) fun _ => Found a := by
  intro fs _ _
  refine ⟨trivial, ?_⟩
  rcases createDirectory_cases a fs with ⟨e, he⟩ | ⟨there, hr, hadmits, he⟩
  · rw [he]
    exact fun _ hu => nomatch hu
  · rw [he]
    intro _ _
    rcases madeAt_put (List.mem_singleton_self a) hr hadmits there with hsame | ⟨_, _, b, hb, hr'⟩
    · rw [get?_put hadmits, if_pos rfl, (resolve_ok_iff.mp hr).2.2.2.none_at rfl] at hsame
      cases hsame
    · rw [List.mem_singleton] at hb
      exact ⟨there, resolve_directory (hb ▸ hr') true⟩

theorem runs_createLineage_found (a : Address) (above : List Address) :
    Runs (fun _ => True) (fun _ => True) (createLineage (a :: above)) fun _ => Found a := by
  have hensure : Runs (fun _ => True) (fun _ => True) (ensureDirectory a) fun _ => Found a :=
    runs_ensureDirectory runs_createDirectory_found fun _ there _ _ hr => ⟨there, hr⟩
  exact runs_createLineage_cons runs_createDirectory_found hensure
    (fun _ _ _ => ⟨trivial, fun _ _ => trivial⟩) hensure

/-- Once the directories of an address have been made, it leads to one. -/
theorem leads_createDirectories (h : (createDirectories a).runOn fs = (.ok (), fs')) :
    ∃ there, Leads fs' true linkLimit a.origin (segments a.written) ⟨there, some .directory⟩ := by
  cases hp : a.parent? with
  | none =>
    obtain ⟨count, hstay⟩ := parent?_none hp
    exact ⟨a.origin, hstay ▸ leads_stay count⟩
  | some p =>
    have hne : a.written ≠ [] := by
      intro hnil
      simp [parent?, hnil, trimEnd] at hp
    obtain ⟨b, bs, hb⟩ := List.exists_cons_of_ne_nil hne
    have hlineage : lineage a.written.length a = a :: lineage bs.length p := by
      rw [hb, List.length_cons, lineage, hp]
    have hfound := runs_createLineage_found a (lineage bs.length p) fs trivial trivial
    rw [createDirectories, hlineage] at h
    rw [h] at hfound
    obtain ⟨there, hr⟩ := hfound.2 () rfl
    exact ⟨there, (resolve_ok_iff.mp hr).2.2.2⟩

/-- Making the directories of an address makes them on its route, and nothing else. -/
theorem Heads.created (h : Heads fs a route) (hb : Trimmed b a)
    (hrun : (createDirectories b).runOn fs = (.ok (), fs')) :
    Made route.Passes fs fs' ∧
      Leads fs' true linkLimit a.origin (segments a.written) ⟨route.stop, some .directory⟩ := by
  obtain ⟨horigin, count, hsteps⟩ := hb
  have hmade : OnlyMade b fs fs' := by
    have hkeep := keeps_onlyMade b fs (MadeAt.refl _ fs)
    rwa [hrun] at hkeep
  obtain ⟨there, hthere⟩ := leads_createDirectories hrun
  have ha := leads_stay_on hthere count
  rw [← hsteps, horigin] at ha
  obtain rfl : there = route.stop := h.arrives hmade ha
  refine ⟨fun other => ?_, ha⟩
  rcases hmade other with hsame | ⟨hnone, hd, c, hc, hr⟩
  · exact .inl hsame
  · obtain ⟨horigin', hsteps'⟩ := lineage_steps hc
    have hprefix := hsteps'.trans (hsteps ▸ List.prefix_append _ _)
    have hleads := (resolve_ok_iff.mp (resolve_directory hr true)).2.2.2
    rcases h.above hmade (horigin'.trans horigin) hprefix hleads with hp | hthere
    · exact .inr ⟨hnone, hd, hp⟩
    · rw [hnone] at hthere
      cases hthere

/-- Behind the address of a directory, names lead on where no link is. -/
theorem heads_joined {names : Location} (hbased : fs.get? a.origin = some .directory)
    (ha : Leads fs true linkLimit a.origin (segments a.written) ⟨loc, some .directory⟩)
    (hn : ∀ n ∈ names, n.isProper = true)
    (hl : ∀ names target, fs.get? (loc ++ names) ≠ some (.link target)) :
    Heads fs (a.joinLocation names) ⟨loc, names.map .name⟩ := by
  obtain ⟨horigin, hsteps⟩ := steps_joinLocation a hn
  refine ⟨horigin ▸ hbased, ⟨_, hsteps, horigin ▸ ha⟩, fun other hp => ?_⟩
  obtain ⟨front, _, rfl⟩ := passes_names hp
  exact hl front

end Screenwright.Proofs.Headings
