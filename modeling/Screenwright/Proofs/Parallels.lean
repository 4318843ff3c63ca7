import Screenwright.Proofs.Assembling
import Screenwright.Proofs.SideBySide

namespace Screenwright.Proofs.Parallels
open Files FileSystem FileAction Address Screen Flutter Export
open Entries Walks Addresses Running Confinement Building Sources Cleanup Identifiers
open Trees Listing Skeletons Packing Decoding Assembling Outcomes Lockstep SideBySide

variable {before before' fs fs' start start' : FileSystem} {a a' root : Address}
variable {loc loc' front names there there' : Location} {source : Tree} {e : Entry}

theorem contentAt_ok_iff (h : Source before loc root there source) (hne : names ≠ [])
    (hn : ∀ n ∈ names, n.isProper = true) {content : Content}
    (he : source names = some (.file content)) (hi : Confined before loc fs) :
    (∃ found, ((contentAt (root.joinLocation names)).runOn fs).1 = .ok found) ↔
      0 ∉ (root.joinLocation names).written ∧ (root.joinLocation names).written ≠ [] ∧
        (root.joinLocation names).written.length ≤ addressLimit ∧
          ∀ n ∈ names, n.length ≤ nameLimit := by
  obtain ⟨_, hroot, _, hr⟩ := resolve_ok_iff.mp (h.leads fs hi)
  obtain ⟨left, hiff⟩ := @resolve_joined_iff fs root there names true true hr hne hn
  constructor
  · rintro ⟨found, hfound⟩
    obtain ⟨p, hp, _⟩ := resolve_of_entryAt (entryAt_of_contentAt hfound)
    obtain ⟨hz, hnil, hl, hw⟩ := (hiff p).mp hp
    exact ⟨hz, hnil, hl, hw.short fun _ hp => plain_file (h.file he hi) hp⟩
  · rintro ⟨hz, hnil, hl, hshort⟩
    have hget : fs.get? (there ++ names) = some (.file content) := by
      rw [← he, ← h.holds fs hi, inside]
    have hwalk := walk_names hshort (get?_above hget hne) hget (by simp) true left
    have hfile := (hiff _).mpr ⟨hz, hnil, hl, leads_of_walk hwalk⟩
    have hsettled := settled_joinLocation hroot hne hn
    refine ⟨content, ?_⟩
    unfold contentAt
    rw [runOn_bind, runOn_entryAt_file hfile hsettled.endsInSlash]
    rfl

/-- Making the directory above a path and then something at the path itself. -/
theorem inStep_placed (hs : Site before a loc) (hs' : Site before' a' loc')
    (hf : ∀ n ∈ front, n.isProper = true) (hn : ∀ n ∈ names, n.isProper = true) (hne : names ≠ [])
    (hfit : Fits a (front ++ names)) (hfit' : Fits a' (front ++ names))
    {f f' : Address → FileError → ExportError} {act act' : FileAction ExportError Unit}
    (h : InStep (Abreast before loc before' loc') Any Any act act') :
    InStep (Abreast before loc before' loc') Any Any
      (do
        let parent := (below a (front ++ names)).parent?.getD (below a front)
        FileAction.mapError (f parent) (createDirectories parent)
        act)
      (do
        let parent := (below a' (front ++ names)).parent?.getD (below a' front)
        FileAction.mapError (f' parent) (createDirectories parent)
        act') := by
  rw [parent_below hs hf hn hne, parent_below hs' hf hn hne, ← List.dropLast_append_of_ne_nil hne]
  have hlast (n : FileName) (hmem : n ∈ (front ++ names).dropLast) : n.isProper = true :=
    proper_append hf hn n ((List.dropLast_sublist _).subset hmem)
  have hparent := inStep_createDirectories hs hs' hlast hfit.dropLast hfit'.dropLast
  exact hparent.mapError.bind fun _ _ _ => h

section Sources

variable (h : Source before loc root there source) (h' : Source before' loc' root there' source)
include h h'

theorem inStep_contentAt (hne : names ≠ []) (hn : ∀ n ∈ names, n.isProper = true)
    {content : Content} (he : source names = some (.file content)) :
    InStep (Abreast before loc before' loc') Any Any (contentAt (root.joinLocation names))
      (contentAt (root.joinLocation names)) := by
  intro fs fs' hs
  have hkept : ((contentAt (root.joinLocation names)).runOn fs).2 = fs :=
    keeps_contentAt (I := (· = fs)) _ fs rfl
  have hkept' : ((contentAt (root.joinLocation names)).runOn fs').2 = fs' :=
    keeps_contentAt (I := (· = fs')) _ fs' rfl
  refine ⟨.of_iff ?_, by rwa [hkept, hkept']⟩
  rw [contentAt_ok_iff h hne hn he hs.left.toConfined,
    contentAt_ok_iff h' hne hn he hs.right.toConfined]

/-- The same is listed wherever the directory is. -/
theorem inStep_listTree :
    InStep (Abreast before loc before' loc') Eq (fun entries entries' => entries = entries' ∧
        Named entries ∧ ∀ e ∈ entries, source e.1 = some e.2)
      (listTree root) (listTree root) := by
  intro fs fs' hs
  have hi := hs.left.toConfined
  have hi' := hs.right.toConfined
  have hmem {names : Location} {e : Entry} :
      (names, e) ∈ fs.below there ↔ names ≠ [] ∧ source names = some e := by
    rw [mem_below_iff, ← h.holds fs hi, inside]
  have hmem' {names : Location} {e : Entry} :
      (names, e) ∈ fs'.below there' ↔ names ≠ [] ∧ source names = some e := by
    rw [mem_below_iff, ← h'.holds fs' hi', inside]
  have hsame : fs.below there = fs'.below there' :=
    eq_of_ordered (below_ordered fs there) (below_ordered fs' there') fun _ => hmem.trans hmem'.symm
  unfold EndAlike
  rw [runOn_listTree (h.leads fs hi), runOn_listTree (h'.leads fs' hi')]
  exact ⟨.ok ⟨hsame, named_below fs there, fun _ he => (hmem.mp he).2⟩, hs⟩

variable (hs : Site before a loc) (hs' : Site before' a' loc')
include hs hs'

theorem inStep_copyFile (hf : ∀ n ∈ front, n.isProper = true) (hne : names ≠ [])
    (hn : ∀ n ∈ names, n.isProper = true) {content : Content}
    (he : source names = some (.file content)) (hfit : Fits a (front ++ names))
    (hfit' : Fits a' (front ++ names)) :
    InStep (Abreast before loc before' loc') Any Any
      (copyFile (root.joinLocation names) (below a (front ++ names)))
      (copyFile (root.joinLocation names) (below a' (front ++ names))) := by
  have hread := inStep_contentAt h h' hne hn he
  have hput (content content' : Content) :=
    (inStep_putFile hs hs' (by simp [hne]) (proper_append hf hn) hfit hfit' content content').any
  have hfirst : InStep (Abreast before loc before' loc') Any Any
      (discard (contentAt (root.joinLocation names)))
      (discard (contentAt (root.joinLocation names))) := hread.bind fun _ _ _ => .pure trivial
  unfold copyFile
  refine hfirst.bind fun _ _ _ => ?_
  refine (hput .empty .empty).bind fun _ _ _ => ?_
  exact hread.bind fun content content' _ => hput content content'

theorem inStep_copyEntry (hf : ∀ n ∈ front, n.isProper = true) (hne : names ≠ [])
    (hn : ∀ n ∈ names, n.isProper = true) (he : source names = some e)
    (hfit : (∀ target, e ≠ .link target) → Fits a (front ++ names))
    (hfit' : (∀ target, e ≠ .link target) → Fits a' (front ++ names)) :
    InStep (Abreast before loc before' loc') Any Any
      (Skeleton.copyEntry root (below a front) (names, e))
      (Skeleton.copyEntry root (below a' front) (names, e)) := by
  have hall := proper_append hf hn
  have hdest : (below a front).joinLocation names = below a (front ++ names) := by
    rw [joinLocation_below (hs.settled.below hf) hn, below_append]
  have hdest' : (below a' front).joinLocation names = below a' (front ++ names) := by
    rw [joinLocation_below (hs'.settled.below hf) hn, below_append]
  unfold Skeleton.copyEntry
  simp only [hdest, hdest']
  cases e with
  | directory =>
    exact (inStep_createDirectories hs hs' hall (hfit (by simp)) (hfit' (by simp))).mapError
  | link target => exact .pure trivial
  | file content =>
    specialize hfit (by simp)
    specialize hfit' (by simp)
    have hcopy := inStep_copyFile h h' hs hs' hf hne hn he hfit hfit'
    exact inStep_placed hs hs' hf hn hne hfit hfit' hcopy.mapError

end Sources

def treeAt (fs : FileSystem) (root : Address) : Option Tree :=
  match resolve fs true root with
  | .ok ⟨there, some .directory⟩ => some (inside there fs)
  | _ => none

def shown (fs : FileSystem) : Skeleton → Option Tree
  | .builtin _ => none
  | .directory root => treeAt fs root

theorem treeAt_iff {tree : Tree} :
    treeAt fs root = some tree ↔
      ∃ there, resolve fs true root = .ok ⟨there, some .directory⟩ ∧ inside there fs = tree := by
  unfold treeAt
  constructor
  · intro h
    split at h
    · next there hr => exact ⟨there, hr, Option.some.inj h⟩
    · cases h
  · rintro ⟨there, hr, rfl⟩
    rw [hr]

theorem runOn_isDirectory_treeAt {ε : Type} :
    (isDirectory (ε := ε) root).runOn fs = (.ok (treeAt fs root).isSome, fs) := by
  rw [runOn_isDirectory]
  unfold treeAt
  cases resolve fs true root with
  | error cause => rfl
  | ok p =>
    obtain ⟨there, entry⟩ := p
    cases entry with
    | none => rfl
    | some e => cases e <;> rfl

def span (names : Location) : Nat := (names.flatMap (slash :: ·)).length

theorem fits_iff : Fits a names ↔ a.written.length + span names ≤ addressLimit := by
  have hlen : (below a names).written.length = a.written.length + span names :=
    List.length_append
  unfold Fits
  rw [hlen]

/-- What is generated for a project gets no address that is too long, unless its own name is. -/
def Ample (a : Address) (project : Project) : Prop :=
  ∀ ps, pages project.routes project = .ok ps →
    ∀ names ∈ located ["lib", "main.dart"] :: ps.map pageNames,
      (∀ n ∈ names, n.length ≤ nameLimit) → Fits a (located ["project"] ++ names)

variable {project : Project}

theorem Ample.fits (h : Ample a project)
    (hle : span names ≤ span (located ["project", "lib", "main.dart"])) : Fits a names := by
  obtain ⟨ps, hps, _⟩ := pages_ok project
  have hshort : ∀ n ∈ located ["lib", "main.dart"], n.length ≤ nameLimit := by decide +kernel
  have hmain : Fits a (located ["project", "lib", "main.dart"]) :=
    h ps hps _ List.mem_cons_self hshort
  rw [fits_iff] at hmain ⊢
  omega

theorem Ample.page (h : Ample a project) {screen : Screen} {index : Nat} {p : Page}
    (hmem : (screen, index) ∈ project.screens.zipIdx)
    (hp : page project.routes screen (nameFor project.routes screen index) = .ok p)
    (hshort : (Text.bytesOf p.name.fileName).length ≤ nameLimit) :
    Fits a (located ["project"] ++ pageNames p) := by
  obtain ⟨ps, hps, _⟩ := pages_ok project
  obtain ⟨q, hq, hmade⟩ := exists_of_forall₂ (mapM_ok_iff.mp hps).flip hmem
  cases hp.symm.trans hmade
  refine h ps hps _ (List.mem_cons_of_mem _ (List.mem_map_of_mem hq)) ?_
  have hdirs : ∀ n ∈ located ["lib", "screens"], n.length ≤ nameLimit := by decide +kernel
  intro n hn
  have hsplit : pageNames p = located ["lib", "screens"] ++ [Text.bytesOf p.name.fileName] := rfl
  rw [hsplit] at hn
  rcases List.mem_append.mp hn with hn | hn
  · exact hdirs n hn
  · rw [List.mem_singleton.mp hn]
    exact hshort

/-- How far from a workspace generated files lie at most. -/
def reach : Nat := span (located ["project", "lib", "screens"]) + 1 + nameLimit

/-- There is room for every project in a workspace whose address is not too long. -/
theorem ample_of_near (h : a.written.length + reach ≤ addressLimit) (project : Project) :
    Ample a project := by
  intro ps _ names hnames hshort
  refine fits_iff.mpr ((Nat.add_le_add_left ?_ _).trans h)
  rcases List.mem_cons.mp hnames with rfl | hpage
  · decide +kernel
  · obtain ⟨p, _, rfl⟩ := List.mem_map.mp hpage
    have hfile := hshort (Text.bytesOf p.name.fileName) (by simp [pageNames, located])
    simp only [reach, pageNames, located, span, List.map_cons, List.map_nil, List.flatMap_append,
      List.flatMap_cons, List.flatMap_nil, List.length_append, List.length_cons, List.length_nil]
    omega

theorem fits_project {w : Workspace} (h : Settled w.address) :
    Fits w.project names ↔ Fits w.address (located ["project"] ++ names) := by
  have hproject : w.project = below w.address (located ["project"]) := project_below h
  unfold Fits
  rw [hproject, below_append]

theorem check_untimed {deadline : Deadline} (h : deadline.limit = none) (unit : Nat) :
    deadline.check unit = .ok () := by
  rw [Deadline.check, h]

theorem archiveEntry_same {level level' : Int64} (hl : isLevel level = true)
    (hl' : isLevel level' = true) {e e' : Entry} (h : SameEntry (some e) (some e'))
    (names : Location) :
    ∃ added added', archiveEntry level names e = .ok (some added) ∧
      archiveEntry level' names e' = .ok (some added') ∧ added.name = added'.name := by
  cases h with
  | directory => exact ⟨_, _, rfl, rfl, rfl⟩
  | file => exact ⟨_, _, if_pos hl, if_pos hl', rfl⟩

theorem addEntry_same {es es' : Archive} {added added' : Archive.Entry Content}
    (hes : es.map (fun e => e.name) = es'.map fun e => e.name) (hname : added.name = added'.name) :
    SameEnd Any (fun es es' => es.map (fun e => e.name) = es'.map fun e => e.name)
      (addEntry es added) (addEntry es' added') := by
  have hany (es : Archive) (name : String) :
      es.any (·.name = name) = (es.map fun e => e.name).any (· = name) := by
    rw [List.any_map]
    rfl
  have htaken : es.any (·.name = added.name) = es'.any (·.name = added'.name) := by
    rw [hany, hany, hes, hname]
  unfold addEntry
  rw [htaken]
  split
  · exact .error trivial
  · refine .ok ?_
    rw [List.map_append, List.map_append, hes, List.map_singleton, List.map_singleton, hname]

section Workspaces

variable (hs : Site before a loc) (hs' : Site before' a' loc')
include hs hs'

theorem inStep_placeFile (hf : ∀ n ∈ front, n.isProper = true) {file : SourceFile}
    {names : Location} (hspelt : Spelt file.path names) (hfit : Fits a (front ++ names))
    (hfit' : Fits a' (front ++ names)) :
    InStep (Abreast before loc before' loc') Any Any (Skeleton.placeFile (below a front) file)
      (Skeleton.placeFile (below a' front) file) := by
  have hne := hspelt.ne_nil
  have hall := proper_append hf hspelt.proper
  unfold Skeleton.placeFile
  simp only [joinText_below (hs.settled.below hf) hspelt,
    joinText_below (hs'.settled.below hf) hspelt, below_append]
  have hput (content : Content) :=
    inStep_putFile hs hs' (by simp [hne]) hall hfit hfit' content content
  exact inStep_placed hs hs' hf hspelt.proper hne hfit hfit' (hput _).mapError

/-- A page goes in, unless its name is too long for either workspace. -/
theorem inStep_writePage (hroom : Ample a project) (hroom' : Ample a' project)
    {deadline deadline' : Deadline} (hd : deadline.limit = none) (hd' : deadline'.limit = none)
    {screen : Screen} {index : Nat} (hmem : (screen, index) ∈ project.screens.zipIdx) :
    InStep (Abreast before loc before' loc') Any Any
      (writePage deadline project.routes (below a (located ["project"])) screen index)
      (writePage deadline' project.routes (below a' (located ["project"])) screen index) := by
  have hf : ∀ n ∈ located ["project"], n.isProper = true := spelt_project.proper
  unfold writePage
  rw [check_untimed hd, check_untimed hd']
  refine .ofExcept_bind fun _ _ => .ofExcept_bind fun p hp => ?_
  replace hp := mapError_ok_iff.mp hp
  have hclean : Clean p.name := name_of_page hp ▸ clean_nameFor project.labels screen index
  have hspelt : Spelt p.path (pageNames p) := spelt_page hclean
  have hall := proper_append hf hspelt.proper
  rw [joinText_below (hs.settled.below hf) hspelt, joinText_below (hs'.settled.below hf) hspelt,
    below_append, below_append]
  have hput : InStep (Abreast before loc before' loc') Any Any
      (putFile (below a (located ["project"] ++ pageNames p)) (.ofText p.source))
      (putFile (below a' (located ["project"] ++ pageNames p)) (.ofText p.source)) := by
    by_cases hlong : nameLimit < (Text.bytesOf p.name.fileName).length
    · exact inStep_putFile_long hs hs' hall (by simp [pageNames, located]) hlong _ _
    · have hshort : (Text.bytesOf p.name.fileName).length ≤ nameLimit := by omega
      exact (inStep_putFile hs hs' (by simp [located]) hall (hroom.page hmem hp hshort)
        (hroom'.page hmem hp hshort) _ _).any
  exact hput.mapError.bind fun _ _ _ => .pure trivial

theorem inStep_copied (h : Source before loc root there source)
    (h' : Source before' loc' root there' source)
    (hfit : ∀ names e, copied source names = some e → Fits a (located ["project"] ++ names))
    (hfit' : ∀ names e, copied source names = some e → Fits a' (located ["project"] ++ names)) :
    InStep (Abreast before loc before' loc') Any Any
      (do
        FileAction.mapError (ExportError.file (below a (located ["project"])))
          (createDirectories (below a (located ["project"])))
        let entries ← FileAction.mapError (ExportError.listing root) (listTree root)
        entries.forM (Skeleton.copyEntry root (below a (located ["project"]))))
      (do
        FileAction.mapError (ExportError.file (below a' (located ["project"])))
          (createDirectories (below a' (located ["project"])))
        let entries ← FileAction.mapError (ExportError.listing root) (listTree root)
        entries.forM (Skeleton.copyEntry root (below a' (located ["project"])))) := by
  have hf : ∀ n ∈ located ["project"], n.isProper = true := spelt_project.proper
  have hroot : copied source [] = some .directory := by rw [copied, if_pos rfl]
  have hmade := inStep_createDirectories hs hs' hf (hfit [] _ hroot) (hfit' [] _ hroot)
  refine hmade.mapError.bind fun _ _ _ => (inStep_listTree h h').mapError.bind ?_
  rintro entries _ ⟨rfl, hnamed, hmem⟩
  refine .forM fun e he => ?_
  obtain ⟨hne, hn⟩ := hnamed e he
  have hsource := hmem e he
  have hkept (hlink : ∀ target, e.2 ≠ .link target) : copied source e.1 = some e.2 := by
    rw [copied, if_neg hne, hsource]
    cases hkind : e.2 with
    | link target => exact absurd hkind (hlink target)
    | directory => rfl
    | file => rfl
  exact inStep_copyEntry h h' hs hs' hf hne hn hsource (fun hlink => hfit _ _ (hkept hlink))
    fun hlink => hfit' _ _ (hkept hlink)

/-- Materializing a skeleton in a workspace that has just been made. -/
theorem endAlike_materialize
    (hstart : Abreast before loc before' loc' start start') (skeleton : Skeleton)
    (hsame : shown start skeleton = shown start' skeleton)
    (hsource : ∀ root there, skeleton = .directory root →
      resolve start true root = .ok ⟨there, some .directory⟩ →
      Source before loc root there (inside there start))
    (hsource' : ∀ root there, skeleton = .directory root →
      resolve start' true root = .ok ⟨there, some .directory⟩ →
      Source before' loc' root there (inside there start'))
    (hfit : ∀ tree names e, Offered start skeleton tree → tree names = some e →
      Fits a (located ["project"] ++ names))
    (hfit' : ∀ tree names e, Offered start' skeleton tree → tree names = some e →
      Fits a' (located ["project"] ++ names)) :
    EndAlike (Abreast before loc before' loc') Any Any
      (skeleton.materialize (below a (located ["project"])))
      (skeleton.materialize (below a' (located ["project"]))) start start' := by
  unfold Skeleton.materialize
  cases skeleton with
  | builtin title =>
    have hplaced : InStep (Abreast before loc before' loc') Any Any
        (do
          let files ← FileAction.ofExcept ((Flutter.skeleton title).mapError .source)
          files.forM (Skeleton.placeFile (below a (located ["project"]))))
        (do
          let files ← FileAction.ofExcept ((Flutter.skeleton title).mapError .source)
          files.forM (Skeleton.placeFile (below a' (located ["project"])))) := by
      refine .ofExcept_bind fun files hfiles => .forM fun file hmem => ?_
      replace hfiles := mapError_ok_iff.mp hfiles
      have hnodup : (files.map SourceFile.path).Nodup := by
        rw [paths_skeleton hfiles]
        decide
      have hfile := provided_file hnodup hmem
      exact inStep_placeFile hs hs' spelt_project.proper (spelt_provided hfiles hmem)
        (hfit _ _ _ ⟨files, hfiles, rfl⟩ hfile) (hfit' _ _ _ ⟨files, hfiles, rfl⟩ hfile)
    exact hplaced start start' hstart
  | directory root =>
    have hlook : EndAlike (Abreast before loc before' loc') Any
        (fun found found' =>
          found = found' ∧ (found = true → ∃ tree, treeAt start root = some tree))
        (isDirectory (ε := ExportError) root) (isDirectory (ε := ExportError) root)
        start start' := by
      unfold EndAlike
      rw [runOn_isDirectory_treeAt, runOn_isDirectory_treeAt]
      exact ⟨.ok ⟨congrArg Option.isSome hsame, Option.isSome_iff_exists.mp⟩, hstart⟩
    refine hlook.bind ?_
    rintro found _ ⟨rfl, hfound⟩
    cases found with
    | false => exact .throw trivial
    | true =>
      obtain ⟨tree, htree⟩ := hfound rfl
      have htree' : treeAt start' root = some tree := hsame.symm.trans htree
      obtain ⟨there, hr, rfl⟩ := treeAt_iff.mp htree
      obtain ⟨there', hr', heq⟩ := treeAt_iff.mp htree'
      refine inStep_copied hs hs' (hsource root there rfl hr)
        (heq ▸ hsource' root there' rfl hr') ?_ ?_
      · exact fun names e => hfit _ names e ⟨there, hr, rfl⟩
      · exact fun names e => hfit' _ names e ⟨there', hr', by rw [heq]⟩

theorem endAlike_assemble (hroom : Ample a project) (hroom' : Ample a' project)
    {deadline deadline' : Deadline} (hd : deadline.limit = none) (hd' : deadline'.limit = none)
    (title : String) {skeleton : Skeleton}
    (h : EndAlike (Abreast before loc before' loc') Any Any
      (skeleton.materialize (below a (located ["project"])))
      (skeleton.materialize (below a' (located ["project"]))) start start') :
    EndAlike (Abreast before loc before' loc') Any Any
      (assemble title deadline project project.routes skeleton (below a (located ["project"])))
      (assemble title deadline' project project.routes skeleton (below a' (located ["project"])))
      start start' := by
  have hf : ∀ n ∈ located ["project"], n.isProper = true := spelt_project.proper
  have hscreens : span (located ["project", "lib", "screens"]) ≤
      span (located ["project", "lib", "main.dart"]) := by decide +kernel
  unfold assemble
  rw [check_untimed hd, check_untimed hd']
  simp only [joinText_below (hs.settled.below hf) spelt_screensDir,
    joinText_below (hs'.settled.below hf) spelt_screensDir,
    joinText_below (hs.settled.below hf) spelt_entryPath,
    joinText_below (hs'.settled.below hf) spelt_entryPath, below_append]
  refine h.bind fun _ _ _ => ?_
  refine (inStep_createDirectories hs hs' (proper_append hf spelt_screensDir.proper)
    (hroom.fits hscreens) (hroom'.fits hscreens)).mapError.bind fun _ _ _ => ?_
  refine .bind (.mapM fun s hmem => inStep_writePage hs hs' hroom hroom' hd hd' hmem)
    fun _ _ _ => ?_
  refine .ofExcept_bind fun _ _ => .ofExcept_bind fun main _ => ?_
  refine (inStep_putFile hs hs' (by simp [located]) (proper_append hf spelt_entryPath.proper)
    (hroom.fits le_rfl) (hroom'.fits le_rfl) _ _).mapError.bind fun _ _ _ => .pure trivial

/-- Archives get the same names, whatever is behind these. -/
theorem inStep_packEntries (hroom : Ample a project) (hroom' : Ample a' project)
    {level level' : Int64} (hl : isLevel level = true) (hl' : isLevel level' = true)
    {deadline deadline' : Deadline} (hd : deadline.limit = none) (hd' : deadline'.limit = none)
    {xs ys : List (Location × Entry)}
    (h : List.Forall₂ (fun x y => x.1 = y.1 ∧ SameEntry (some x.2) (some y.2)) xs ys)
    (unit unit' : Nat) {es es' : Archive}
    (hes : es.map (fun e => e.name) = es'.map fun e => e.name) :
    InStep (Abreast before loc before' loc') Any Any
      (packEntries level deadline (below a (located ["archive.zip"])) unit es xs)
      (packEntries level' deadline' (below a' (located ["archive.zip"])) unit' es' ys) := by
  have hle : span (located ["archive.zip"]) ≤
      span (located ["project", "lib", "main.dart"]) := by decide +kernel
  have hput (content content' : Content) := inStep_putFile hs hs' spelt_archive.ne_nil
    spelt_archive.proper (hroom.fits hle) (hroom'.fits hle) content content'
  induction h generalizing unit unit' es es' with
  | nil => exact .pure trivial
  | @cons x y xs ys hxy _ ih =>
    obtain ⟨names, e⟩ := x
    obtain ⟨_, e'⟩ := y
    obtain ⟨rfl, he⟩ := hxy
    obtain ⟨added, added', hadded, hadded', hname⟩ := archiveEntry_same hl hl' he names
    unfold packEntries
    rw [check_untimed hd, check_untimed hd', hadded, hadded']
    refine .ofExcept_ok_bind (.ofExcept_ok_bind ?_)
    refine (inStep_ofExcept (addEntry_same hes hname)).bind fun _ _ hmore => ?_
    exact (hput _ _).mapError.bind fun _ _ _ => ih _ _ hmore

theorem inStep_package (hroom : Ample a project) (hroom' : Ample a' project) {level level' : Int64}
    (hl : isLevel level = true) (hl' : isLevel level' = true) {deadline deadline' : Deadline}
    (hd : deadline.limit = none) (hd' : deadline'.limit = none) :
    InStep (Abreast before loc before' loc') Any Any
      (package level deadline (below a (located ["project"])) (below a (located ["archive.zip"])))
      (package level' deadline' (below a' (located ["project"]))
        (below a' (located ["archive.zip"]))) := by
  have hproject : span (located ["project"]) ≤
      span (located ["project", "lib", "main.dart"]) := by decide +kernel
  have harchive : span (located ["archive.zip"]) ≤
      span (located ["project", "lib", "main.dart"]) := by decide +kernel
  unfold package
  refine (inStep_putFile hs hs' spelt_archive.ne_nil spelt_archive.proper (hroom.fits harchive)
    (hroom'.fits harchive) _ _).mapError.bind fun _ _ _ => .get fun fs fs' h => ?_
  have hlist := (inStep_listTree_below hs hs' spelt_project.ne_nil spelt_project.proper
    (hroom.fits hproject) (hroom'.fits hproject) fs fs' h).1
  change SameEnd _ _ ((listTree (below a (located ["project"]))).runOn fs).1
    ((listTree (below a' (located ["project"]))).runOn fs').1 at hlist
  generalize (listTree (below a (located ["project"]))).runOn fs = left at hlist
  generalize (listTree (below a' (located ["project"]))).runOn fs' = right at hlist
  obtain ⟨r, _⟩ := left
  obtain ⟨r', _⟩ := right
  dsimp only at hlist
  cases hlist with
  | error =>
    dsimp only
    rw [check_untimed hd, check_untimed hd']
    exact .ofExcept_ok_bind (.throw trivial)
  | ok hentries =>
    exact (inStep_packEntries hs hs' hroom hroom' hl hl' hd hd' hentries 0 0 rfl).bind
      fun _ _ _ => .pure trivial

end Workspaces

end Screenwright.Proofs.Parallels
