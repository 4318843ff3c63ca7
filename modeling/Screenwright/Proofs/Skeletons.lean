import Screenwright.Proofs.Decoding
import Screenwright.Proofs.Listing
import Screenwright.Proofs.Trees

namespace Screenwright.Proofs.Skeletons
open Files FileSystem FileAction Address Export Flutter
open Entries Walks Addresses Running Confinement Building Sources Trees Listing Decoding Outcomes

/-- A tree on its way from an old one to one that holds all of a target: what it holds belongs there
or was there, and some names are done. -/
structure Toward (target old : Tree) (done : List Location) (tree : Tree) : Prop where
  sound : ∀ names, tree names = old names ∨ ∃ e, target names = some e ∧ tree names = some e
  complete : ∀ names ∈ done, ∀ e, target names = some e → tree names = some e
  kept : ∀ names, old names = some .directory → tree names = some .directory

variable {target old tree : Tree} {done : List Location} {names : Location} {e : Entry}

/-- A tree put onto an old one. -/
def onto (target old : Tree) : Tree := fun names => (target names).or (old names)

theorem onto_nothing (target : Tree) : onto target (fun _ => none) = target :=
  funext fun _ => Option.or_none

theorem Toward.start (target tree : Tree) : Toward target tree [] tree :=
  ⟨fun _ => .inl rfl, by simp, fun _ h => h⟩

theorem Toward.eq (h : Toward target old done tree)
    (hdone : ∀ e, target names = some e → names ∈ done) :
    tree names = onto target old names := by
  unfold onto
  cases ht : target names with
  | some e => exact h.complete names (hdone e ht) e ht
  | none =>
    refine (h.sound names).resolve_right ?_
    rintro ⟨e, he, _⟩
    rw [ht] at he
    cases he

theorem Toward.clear (h : Toward target old done tree)
    (hdirs : ∀ other, other <+: names → target other = some .directory) :
    Toward target old (names :: done) (clear names tree) := by
  constructor
  · intro other
    unfold Trees.clear
    split
    · next hp => exact .inr ⟨_, hdirs other hp, rfl⟩
    · exact h.sound other
  · intro other hmem e he
    unfold Trees.clear
    split
    · next hp => rw [← hdirs other hp, he]
    · next hp =>
      rcases List.mem_cons.mp hmem with rfl | hmem
      · exact absurd (List.prefix_refl _) hp
      · exact h.complete other hmem e he
  · intro other hold
    unfold Trees.clear
    split
    · rfl
    · exact h.kept other hold

theorem Toward.place (h : Toward target old done tree) (he : target names = some e)
    (hfree : tree names ≠ some .directory) :
    Toward target old (names :: done) (place names e tree) := by
  constructor
  · intro other
    unfold Trees.place
    split
    · next heq => exact .inr ⟨e, heq ▸ he, rfl⟩
    · exact h.sound other
  · intro other hmem f hf
    unfold Trees.place
    split
    · next heq => rw [← he, ← heq, hf]
    · next hne => exact h.complete other ((List.mem_cons.mp hmem).resolve_left hne) f hf
  · intro other hold
    unfold Trees.place
    split
    · next heq => exact absurd (h.kept names (heq ▸ hold)) hfree
    · exact h.kept other hold

theorem Toward.skip (h : Toward target old done tree) (he : target names = none) :
    Toward target old (names :: done) tree := by
  refine ⟨h.sound, fun other hmem f hf => ?_, h.kept⟩
  rcases List.mem_cons.mp hmem with rfl | hmem
  · rw [he] at hf
    cases hf
  · exact h.complete other hmem f hf

theorem Toward.drop (h : Toward target old (names :: done) tree) : Toward target old done tree :=
  ⟨h.sound, fun other hmem => h.complete other (List.mem_cons_of_mem _ hmem), h.kept⟩

theorem runs_forM {ε α : Type} {I : FileSystem → Prop} {loc : Location}
    {f : α → FileAction ε Unit} {key : α → Location} {xs : List α}
    (h : ∀ x ∈ xs, ∀ done, Runs I (fun fs => Toward target old done (inside loc fs)) (f x)
      fun _ fs => Toward target old (key x :: done) (inside loc fs)) (done : List Location) :
    Runs I (fun fs => Toward target old done (inside loc fs)) (xs.forM f)
      fun _ fs => Toward target old ((xs.map key).reverse ++ done) (inside loc fs) := by
  induction xs generalizing done with
  | nil => exact .pure fun _ hp => hp
  | cons x xs ih =>
    obtain ⟨hx, hxs⟩ := List.forall_mem_cons.mp h
    have hrest := ih hxs (key x :: done)
    rw [List.map_cons, List.reverse_cons, List.append_assoc]
    exact (hx done).bind fun _ => hrest

variable {before : FileSystem} {a : Address} {loc front : Location}

theorem parent_below (hs : Site before a loc) (hf : ∀ n ∈ front, n.isProper = true)
    (hn : ∀ n ∈ names, n.isProper = true) (hne : names ≠ []) (dest : Address) :
    (below a (front ++ names)).parent?.getD dest = below a (front ++ names.dropLast) := by
  rw [parent?_joined hs.settled (proper_append hf hn) (by simp [hne]), Option.getD_some,
    List.dropLast_append_of_ne_nil hne]

/-- What lies in a directory that is copied, without links. -/
def copied (source : Tree) : Tree := fun names =>
  if names = [] then some .directory
  else (source names).filter fun e => match e with | .link _ => false | _ => true

theorem resolve_joined {fs : FileSystem} {root : Address} {there : Location} {follow ends : Bool}
    {p : Place}
    (hr : Leads fs ends linkLimit root.origin (segments root.written) ⟨there, some .directory⟩)
    (hne : names ≠ []) (hn : ∀ n ∈ names, n.isProper = true)
    (hl : ∀ more, more <+: names → ∀ target, fs.get? (there ++ more) ≠ some (.link target))
    (hd : fs.get? there = some .directory)
    (hp : resolve fs follow (root.joinLocation names) = .ok p) :
    p = ⟨there ++ names, fs.get? (there ++ names)⟩ := by
  obtain ⟨left, hiff⟩ := resolve_joined_iff hr hne hn
  exact ((hiff p).mp hp).2.2.2.names hd hl

section
variable {fs : FileSystem} {root : Address} {there other : Location} {content : Content}

/-- All that leads to what is copied is copied. -/
theorem copied_above (he : inside there fs names = some e) (hp : other <+: names)
    (hne : other ≠ names) : copied (inside there fs) other = some .directory := by
  obtain ⟨more, rfl⟩ := hp
  have hmore : more ≠ [] := by
    rintro rfl
    exact hne (List.append_nil _).symm
  unfold inside at he
  rw [← List.append_assoc] at he
  unfold copied
  split
  · rfl
  · rw [inside, get?_above he hmore]
    rfl

theorem copied_directory (he : inside there fs names = some .directory) (hp : other <+: names) :
    copied (inside there fs) other = some .directory := by
  by_cases heq : other = names
  · rw [heq, copied, he]
    exact ite_self _
  · exact copied_above he hp heq

theorem copied_parent (he : inside there fs names = some e) (hne : names ≠ [])
    (hp : other <+: names.dropLast) : copied (inside there fs) other = some .directory := by
  refine copied_above he (hp.trans (List.dropLast_prefix names)) ?_
  rintro rfl
  have := hp.length_le
  have := List.length_pos_iff.mpr hne
  rw [List.length_dropLast] at *
  omega

theorem plain_file (he : fs.get? (there ++ names) = some (.file content)) (hp : other <+: names)
    (target : List UInt8) : fs.get? (there ++ other) ≠ some (.link target) := by
  obtain ⟨more, rfl⟩ := hp
  rw [← List.append_assoc] at he
  by_cases hmore : more = []
  · rw [hmore, List.append_nil] at he
    simp [he]
  · simp [get?_above he hmore]

theorem content_joined (hr : resolve fs true root = .ok ⟨there, some .directory⟩) (hne : names ≠ [])
    (hn : ∀ n ∈ names, n.isProper = true) (he : fs.get? (there ++ names) = some (.file content))
    {found : Content} (hread : ((contentAt (root.joinLocation names)).runOn fs).1 = .ok found) :
    found = content := by
  obtain ⟨p, hp, hfile⟩ := resolve_of_entryAt (entryAt_of_contentAt hread)
  have hplace := resolve_joined (resolve_ok_iff.mp hr).2.2.2 hne hn
    (fun _ hmore => plain_file he hmore) (get?_above he hne) hp
  rw [hplace, he] at hfile
  cases hfile
  rfl

end

/-- A directory that work elsewhere leaves as it is. -/
structure Source (before : FileSystem) (loc : Location) (root : Address) (there : Location)
    (source : Tree) : Prop where
  leads : ∀ fs, Confined before loc fs → resolve fs true root = .ok ⟨there, some .directory⟩
  holds : ∀ fs, Confined before loc fs → inside there fs = source
  now : ∃ fs, Confined before loc fs

variable {root : Address} {there : Location} {source : Tree}

theorem Source.file (h : Source before loc root there source) {content : Content}
    (he : source names = some (.file content)) {fs : FileSystem} (hi : Confined before loc fs) :
    fs.get? (there ++ names) = some (.file content) := by
  rw [← he, ← h.holds fs hi, inside]

theorem Source.content (h : Source before loc root there source) (hne : names ≠ [])
    (hn : ∀ n ∈ names, n.isProper = true) {content : Content}
    (he : source names = some (.file content)) {fs : FileSystem} {found : Content}
    (hi : Confined before loc fs)
    (hread : ((contentAt (root.joinLocation names)).runOn fs).1 = .ok found) : found = content :=
  content_joined (h.leads fs hi) hne hn (h.file he hi) hread

theorem runs_copyEntry (hs : Site before a loc) (hf : ∀ n ∈ front, n.isProper = true)
    (h : Source before loc root there source) (hne : names ≠ [])
    (hn : ∀ n ∈ names, n.isProper = true) (he : source names = some e) (done : List Location) :
    Runs (Confined before loc)
      (fun fs => Toward (copied source) old done (inside (loc ++ front) fs))
      (Skeleton.copyEntry root (below a front) (names, e))
      fun _ fs => Toward (copied source) old (names :: done) (inside (loc ++ front) fs) := by
  have hdest : (below a front).joinLocation names = below a (front ++ names) := by
    rw [joinLocation_below (hs.settled.below hf) hn, below_append]
  obtain ⟨_, hnow⟩ := h.now
  have hsource := h.holds _ hnow
  unfold Skeleton.copyEntry
  simp only [hdest]
  cases e with
  | directory =>
    have hdirs (other : Location) (hp : other <+: names) :
        copied source other = some .directory := by
      rw [← hsource] at he ⊢
      exact copied_directory he hp
    exact (runs_clear hs hf hn fun tree ht => ht.clear hdirs).mapError
  | link target =>
    exact .pure fun fs ht => ht.skip (by rw [copied, if_neg hne, he]; rfl)
  | file content =>
    rw [parent_below hs hf hn hne]
    have hlast (n : FileName) (hmem : n ∈ names.dropLast) : n.isProper = true :=
      hn n ((List.dropLast_sublist names).subset hmem)
    have hfile : copied source names = some (.file content) := by
      rw [copied, if_neg hne, he]
      rfl
    have habove (other : Location) (hp : other <+: names.dropLast) :
        copied source other = some .directory := by
      rw [← hsource] at he ⊢
      exact copied_parent he hne hp
    have hparent : Runs (Confined before loc)
        (fun fs => Toward (copied source) old done (inside (loc ++ front) fs))
        (createDirectories (below a (front ++ names.dropLast)))
        fun _ fs => Toward (copied source) old done (inside (loc ++ front) fs) :=
      runs_clear hs hf hlast fun tree ht =>
        (ht.clear habove).drop
    refine hparent.mapError.bind fun _ => ?_
    refine (runs_copy hs hf hn hne (fun _ _ hi hread => h.content hne hn he hi hread) ?_).mapError
    exact fun tree ht hfree => ht.place hfile hfree

theorem runs_listTree {I P : FileSystem → Prop} (root : Address) :
    Runs I P (listTree root) fun entries fs => P fs ∧
      ∃ p, resolve fs true root = .ok p ∧ entries = fs.below p.location := by
  intro fs hi hp
  have hsame : ((listTree root).runOn fs).2 = fs := keeps_listTree (I := (· = fs)) root fs rfl
  rw [hsame]
  exact ⟨hi, fun entries h => ⟨hp, listTree_ok h⟩⟩

/-- All entries of a directory are copied, and what is not copied is a link. -/
theorem runs_copyEntries (hs : Site before a loc) (hf : ∀ n ∈ front, n.isProper = true)
    (h : Source before loc root there source) {fs : FileSystem} (hi : Confined before loc fs) :
    Runs (Confined before loc)
      (fun after => Toward (copied source) old [[]] (inside (loc ++ front) after))
      ((fs.below there).forM (Skeleton.copyEntry root (below a front)))
      fun _ after => inside (loc ++ front) after = onto (copied source) old := by
  have hmem {names : Location} {e : Entry} :
      (names, e) ∈ fs.below there ↔ names ≠ [] ∧ source names = some e := by
    rw [mem_below_iff, ← h.holds fs hi, inside]
  have hcopy : Runs (Confined before loc)
      (fun fs => Toward (copied source) old [[]] (inside (loc ++ front) fs))
      ((fs.below there).forM (Skeleton.copyEntry root (below a front)))
      fun _ after => Toward (copied source) old (((fs.below there).map Prod.fst).reverse ++ [[]])
        (inside (loc ++ front) after) :=
    runs_forM (fun e he done => runs_copyEntry hs hf h (hmem.mp he).1 (named_below fs there e he).2
      (hmem.mp he).2 done) _
  refine hcopy.mono fun _ _ htoward => ?_
  funext names
  refine htoward.eq fun e he => ?_
  by_cases hne : names = []
  · simp [hne]
  · rw [copied, if_neg hne] at he
    obtain ⟨hsource, _⟩ := Option.filter_eq_some_iff.mp he
    have hin : (names, e) ∈ fs.below there := hmem.mpr ⟨hne, hsource⟩
    exact List.mem_append_left _ (List.mem_reverse.mpr (List.mem_map_of_mem hin))

theorem runs_copied (hs : Site before a loc) (hf : ∀ n ∈ front, n.isProper = true)
    (h : Source before loc root there source) :
    Runs (Confined before loc)
      (fun fs => Toward (copied source) old [] (inside (loc ++ front) fs))
      (do
        FileAction.mapError (ExportError.file (below a front)) (createDirectories (below a front))
        let entries ← FileAction.mapError (ExportError.listing root) (listTree root)
        entries.forM (Skeleton.copyEntry root (below a front)))
      fun _ fs => inside (loc ++ front) fs = onto (copied source) old := by
  have hroot (other : Location) (hp : other <+: []) : copied source other = some .directory := by
    rw [List.prefix_nil.mp hp, copied, if_pos rfl]
  have hmade : Runs (Confined before loc)
      (fun fs => Toward (copied source) old [] (inside (loc ++ front) fs))
      (createDirectories (below a front))
      fun _ fs => Toward (copied source) old [[]] (inside (loc ++ front) fs) := by
    have hclear : Runs (Confined before loc)
        (fun fs => Toward (copied source) old [] (inside (loc ++ front) fs))
        (createDirectories (below a (front ++ [])))
        fun _ fs => Toward (copied source) old [[]] (inside (loc ++ front) fs) :=
      runs_clear hs hf (List.forall_mem_nil _) fun tree ht => ht.clear hroot
    rwa [List.append_nil] at hclear
  refine hmade.mapError.bind fun _ => (runs_listTree root).mapError.bind fun entries => ?_
  rintro fs hi ⟨htoward, p, hr, rfl⟩
  have hp := (h.leads fs hi).symm.trans hr
  cases hp
  exact runs_copyEntries hs hf h hi fs hi htoward

/-- What files put into an empty directory. -/
def provided (files : List SourceFile) : Tree := fun names =>
  if names = [] then some .directory
  else (files.find? fun f => [Text.bytesOf f.path] = names).map fun f => .file (.ofText f.content)

theorem provided_file {files : List SourceFile} (h : (files.map SourceFile.path).Nodup)
    {file : SourceFile} (hf : file ∈ files) :
    provided files [Text.bytesOf file.path] = some (.file (.ofText file.content)) := by
  have hkey : (fun f : SourceFile => decide ([Text.bytesOf f.path] = [Text.bytesOf file.path])) =
      fun f => decide (f.path = file.path) := by
    funext f
    by_cases he : f.path = file.path
    · simp [he]
    · have hne : Text.bytesOf f.path ≠ Text.bytesOf file.path := fun hb => he (bytesOf_inj hb)
      simp [he, hne]
  rw [provided, if_neg (by simp), hkey, Keyed.find?_key h hf]
  rfl

theorem runs_placeFile (hs : Site before a loc) (hf : ∀ n ∈ front, n.isProper = true)
    {files : List SourceFile} (hnodup : (files.map SourceFile.path).Nodup) {file : SourceFile}
    (hmem : file ∈ files) (hspelt : Spelt file.path [Text.bytesOf file.path])
    (done : List Location) :
    Runs (Confined before loc)
      (fun fs => Toward (provided files) old done (inside (loc ++ front) fs))
      (Skeleton.placeFile (below a front) file)
      fun _ fs => Toward (provided files) old ([Text.bytesOf file.path] :: done)
        (inside (loc ++ front) fs) := by
  have hroot (other : Location) (hp : other <+: []) : provided files other = some .directory := by
    rw [List.prefix_nil.mp hp, provided, if_pos rfl]
  have hparent : Runs (Confined before loc)
      (fun fs => Toward (provided files) old done (inside (loc ++ front) fs))
      (createDirectories (below a (front ++ [])))
      fun _ fs => Toward (provided files) old done (inside (loc ++ front) fs) :=
    runs_clear hs hf (List.forall_mem_nil _) fun tree ht => (ht.clear hroot).drop
  unfold Skeleton.placeFile
  simp only [joinText_below (hs.settled.below hf) hspelt, below_append]
  rw [parent_below hs hf hspelt.proper (by simp)]
  refine hparent.mapError.bind fun _ => ?_
  refine (runs_place hs hf hspelt.proper (by simp) _ ?_).mapError
  exact fun tree ht hfree => ht.place (provided_file hnodup hmem) hfree

theorem paths_skeleton {title : String} {files : List SourceFile}
    (h : Flutter.skeleton title = .ok files) :
    files.map SourceFile.path = Template.skeletonFiles.map Prod.fst := by
  have hfiles := mapM_ok_iff.mp h
  clear h
  generalize Template.skeletonFiles = templates at hfiles
  induction hfiles with
  | nil => rfl
  | @cons t file ts fs ht _ ih =>
    obtain ⟨path, pieces⟩ := t
    cases hs : renderSource path [("title", title)] with
    | error e =>
      simp only [hs] at ht
      cases ht
    | ok content =>
      simp only [hs] at ht
      cases ht
      rw [List.map_cons, List.map_cons, ih]

theorem path_of_skeleton {title : String} {files : List SourceFile}
    (h : Flutter.skeleton title = .ok files) {file : SourceFile} (hmem : file ∈ files) :
    file.path ∈ Template.skeletonFiles.map Prod.fst := by
  rw [← paths_skeleton h]
  exact List.mem_map_of_mem hmem

theorem spelt_provided {title : String} {files : List SourceFile}
    (h : Flutter.skeleton title = .ok files) {file : SourceFile} (hmem : file ∈ files) :
    Spelt file.path [Text.bytesOf file.path] := by
  obtain ⟨⟨path, pieces⟩, hp, he⟩ := List.mem_map.mp (path_of_skeleton h hmem)
  exact he ▸ spelt_skeleton hp

theorem runs_provided (hs : Site before a loc) (hf : ∀ n ∈ front, n.isProper = true)
    {title : String} {files : List SourceFile} (h : Flutter.skeleton title = .ok files) :
    Runs (Confined before loc)
      (fun fs => Toward (provided files) old [] (inside (loc ++ front) fs))
      (files.forM (Skeleton.placeFile (below a front)))
      fun _ fs => ∀ names ≠ [],
        inside (loc ++ front) fs names = onto (provided files) old names := by
  have hnodup : (files.map SourceFile.path).Nodup := by
    rw [paths_skeleton h]
    decide
  have hplace : Runs (Confined before loc)
      (fun fs => Toward (provided files) old [] (inside (loc ++ front) fs))
      (files.forM (Skeleton.placeFile (below a front)))
      fun _ fs => Toward (provided files) old
        ((files.map fun file => [Text.bytesOf file.path]).reverse ++ [])
        (inside (loc ++ front) fs) :=
    runs_forM (fun file hmem done =>
      runs_placeFile hs hf hnodup hmem (spelt_provided h hmem) done) _
  refine hplace.mono fun _ fs htoward names hne => htoward.eq fun e he => ?_
  rw [provided, if_neg hne] at he
  obtain ⟨file, hfile, _⟩ := Option.map_eq_some_iff.mp he
  have hname : [Text.bytesOf file.path] = names := by simpa using List.find?_some hfile
  rw [List.append_nil, List.mem_reverse, ← hname]
  exact List.mem_map_of_mem (List.mem_of_find?_eq_some hfile)

variable {start : FileSystem}

/-- Nothing is lost while work stays in a directory that was empty. -/
theorem grows_confined (hstart : Confined before loc start)
    (hempty : ∀ names ≠ [], inside loc start names = none) {fs : FileSystem}
    (hi : Confined before loc fs) : Grows start fs := by
  intro other e he
  by_cases hp : loc <+: other
  · obtain ⟨names, rfl⟩ := hp
    by_cases hne : names = []
    · rw [hne, List.append_nil, hstart.made] at he
      rw [hne, List.append_nil, hi.made, he]
    · rw [← inside, hempty names hne] at he
      cases he
  · rw [hi.outside other hp, ← hstart.outside other hp, he]

theorem source_of_apart (hstart : Confined before loc start)
    (hempty : ∀ names ≠ [], inside loc start names = none)
    (hr : resolve start true root = .ok ⟨there, some .directory⟩)
    (hapart : ∀ names, ¬ loc <+: there ++ names) :
    Source before loc root there (inside there start) := by
  constructor
  · intro fs hi
    obtain ⟨hz, hne, hl, hw⟩ := resolve_ok_iff.mp hr
    exact resolve_ok_iff.mpr ⟨hz, hne, hl, hw.grows (grows_confined hstart hempty hi) rfl⟩
  · intro fs hi
    funext names
    unfold inside
    rw [hi.outside _ (hapart names), hstart.outside _ (hapart names)]
  · exact ⟨start, hstart⟩

/-- What a skeleton is to put into a directory. -/
def Offered (start : FileSystem) : Skeleton → Tree → Prop
  | .builtin title, tree => ∃ files, Flutter.skeleton title = .ok files ∧ tree = provided files
  | .directory root, tree => ∃ there, resolve start true root = .ok ⟨there, some .directory⟩ ∧
      tree = copied (inside there start)

/-- A directory to be copied that does not reach into another one. -/
def Apart (start : FileSystem) (loc : Location) (skeleton : Skeleton) : Prop :=
  ∀ root there, skeleton = .directory root →
    resolve start true root = .ok ⟨there, some .directory⟩ → ∀ names, ¬ loc <+: there ++ names

theorem ends_materialize (hs : Site before a loc) (hf : ∀ n ∈ front, n.isProper = true)
    (hne : front ≠ []) (hstart : Confined before loc start)
    (hempty : ∀ names ≠ [], inside loc start names = none) {skeleton : Skeleton}
    (hapart : Apart start loc skeleton) :
    Ends start (skeleton.materialize (below a front)) (fun _ => True) fun _ fs =>
      Confined before loc fs ∧ ∃ tree, Offered start skeleton tree ∧
        ∀ names ≠ [], inside (loc ++ front) fs names = tree names := by
  have hnone : inside (loc ++ front) start = fun _ => none := by
    funext names
    have := hempty (front ++ names) (by simp [hne])
    rwa [inside, ← List.append_assoc] at this
  have htoward (target : Tree) :
      Toward target (fun _ => none) [] (inside (loc ++ front) start) := by
    rw [hnone]
    exact .start target _
  unfold Skeleton.materialize
  cases skeleton with
  | builtin title =>
    refine .bind (S := fun files fs => fs = start ∧ Flutter.skeleton title = .ok files) ?_ ?_
    · exact ends_ofExcept trivial fun files h => ⟨rfl, mapError_ok_iff.mp h⟩
    rintro files _ ⟨rfl, hfiles⟩
    refine ((runs_provided hs hf hfiles).ends hstart (htoward _)).mono (fun _ _ => trivial) ?_
    rintro _ fs ⟨hi, htree⟩
    rw [onto_nothing] at htree
    exact ⟨hi, _, ⟨files, hfiles, rfl⟩, htree⟩
  | directory root =>
    have hlook : Ends start (Files.isDirectory (ε := ExportError) root) (fun _ => True)
        fun found fs => fs = start ∧ (found = true →
          ∃ there, resolve start true root = .ok ⟨there, some .directory⟩) := by
      have hfound (h : ((Files.isDirectory (ε := ExportError) root).runOn start).1 = .ok true) :=
        resolve_of_isDirectory h
      unfold Ends
      rw [runOn_isDirectory] at hfound ⊢
      exact ⟨rfl, fun h => hfound (congrArg Except.ok h)⟩
    refine hlook.bind ?_
    rintro found _ ⟨rfl, hfound⟩
    cases found with
    | false => trivial
    | true =>
      obtain ⟨there, hr⟩ := hfound rfl
      have hsource := source_of_apart hstart hempty hr (hapart root there rfl hr)
      refine ((runs_copied hs hf hsource).ends hstart (htoward _)).mono (fun _ _ => trivial) ?_
      rintro _ fs ⟨hi, htree⟩
      rw [onto_nothing] at htree
      exact ⟨hi, _, ⟨there, hr, rfl⟩, fun names _ => congrFun htree names⟩

end Screenwright.Proofs.Skeletons
