import Screenwright.Proofs.Assembling

namespace Screenwright.Proofs.Contents
open Files FileSystem FileAction Address Screen Flutter Export
open Entries Walks Addresses Running Confinement Building Cleanup
open Trees Listing Skeletons Packing Decoding Assembling

def entryFor (level : Int64) (names : List String) : Entry → Archive.Entry Content
  | .file content => ⟨"/".intercalate names, methodAt level, some content⟩
  | _ => ⟨"/".intercalate names ++ "/", .stored, none⟩

/-- An archive holds exactly what lies in a tree, each once and in the order of a walk. -/
def Shows (level : Int64) (tree : Tree) (es : Archive) : Prop :=
  ∃ items : List (List String × Entry), es = items.map (fun e => entryFor level e.1 e.2) ∧
    items.Pairwise (fun e f => located e.1 < located f.1) ∧
    ∀ names e, (names, e) ∈ items ↔ names ≠ [] ∧ tree (located names) = some e

def directory (name : String) : Archive.Entry Content := ⟨name, .stored, none⟩

def file (level : Int64) (name content : String) : Archive.Entry Content :=
  ⟨name, methodAt level, some (.ofText content)⟩

/-- The files of a skeleton that is made for a title. -/
def madeFiles (manifest options ignored readme : String) : List SourceFile := [
  ⟨"pubspec.yaml", manifest⟩, ⟨"analysis_options.yaml", options⟩, ⟨".gitignore", ignored⟩,
  ⟨"README.md", readme⟩]

variable {level : Int64} {tree : Tree} {es : Archive}

theorem entryName_located (names : List String) :
    entryName (located names) = "/".intercalate names := by
  have hshown : (located names).map Text.shown = names := by
    rw [located, List.map_map, Function.comp_def]
    simp [shown_bytesOf]
  rw [entryName, hshown]

theorem entryOf_located (names : List String) (e : Entry) :
    entryOf level (located names) e = entryFor level names e := by
  cases e <;> simp [entryOf, entryFor, entryName_located]

theorem shows_of_lists (h : Lists level tree es)
    (htext : ∀ names e, tree names = some e → ∃ texts, names = located texts) :
    Shows level tree es := by
  obtain ⟨⟨items, rfl, hordered, hmem⟩, _⟩ := h
  have hnames : ∀ e ∈ items, located (e.1.map Text.shown) = e.1 := by
    rintro ⟨names, e⟩ he
    obtain ⟨texts, rfl⟩ := htext names e ((hmem names e).mp he).2
    simp [located, Function.comp_def, shown_bytesOf]
  refine ⟨items.map fun e => (e.1.map Text.shown, e.2), ?_, ?_, ?_⟩
  · rw [List.map_map]
    refine List.map_congr_left fun e he => ?_
    rw [Function.comp_apply, ← entryOf_located, hnames e he]
  · rw [List.pairwise_map]
    refine hordered.imp_of_mem fun he hf hlt => ?_
    rwa [hnames _ he, hnames _ hf]
  · intro texts e
    constructor
    · intro hin
      obtain ⟨⟨names, f⟩, he, heq⟩ := List.mem_map.mp hin
      obtain ⟨rfl, rfl⟩ := Prod.mk.inj heq
      rw [hnames _ he]
      obtain ⟨hne, hf⟩ := (hmem names f).mp he
      exact ⟨by simpa using hne, hf⟩
    · rintro ⟨hne, he⟩
      have hin : (located texts, e) ∈ items := (hmem _ _).mpr ⟨by simpa [located] using hne, he⟩
      refine List.mem_map.mpr ⟨_, hin, ?_⟩
      simp [located, Function.comp_def, shown_bytesOf]

variable {main : String} {ps : List Page} {names : Location} {e : Entry}
variable {files : List (Location × String)}

theorem overlaid_file (h : (files.map Prod.fst).Nodup) {f : Location × String} (hf : f ∈ files) :
    overlaid files tree f.1 = some (.file (.ofText f.2)) := by
  rw [overlaid, Keyed.find?_key h hf]

theorem overlaid_other (h : ∀ f ∈ files, f.1 ≠ names) :
    overlaid files tree names =
      if names <+: located ["lib", "screens"] then some .directory else tree names := by
  have hnone : files.find? (·.1 = names) = none :=
    List.find?_eq_none.mpr fun f hf => by simpa using h f hf
  rw [overlaid, hnone]

theorem overlaid_cases (h : overlaid files tree names = some e) :
    (∃ f ∈ files, f.1 = names ∧ e = .file (.ofText f.2)) ∨
      names <+: located ["lib", "screens"] ∧ e = .directory ∨ tree names = some e := by
  unfold overlaid at h
  split at h
  · next f hf =>
    have hname : f.1 = names := by simpa using List.find?_some hf
    exact .inl ⟨f, List.mem_of_find?_eq_some hf, hname, (Option.some.inj h).symm⟩
  · split at h
    · next hp => exact .inr (.inl ⟨hp, (Option.some.inj h).symm⟩)
    · exact .inr (.inr h)

theorem mem_generated {f : Location × String} :
    f ∈ generated main ps ↔ f = (located ["lib", "main.dart"], main) ∨
      ∃ p ∈ ps, (pageNames p, p.source) = f := by
  rw [generated, List.mem_cons, List.mem_map]

theorem located_initial {texts : List String} (h : names <+: located texts) :
    names = located (texts.take names.length) := by
  rw [located, List.map_take]
  exact List.prefix_iff_eq_take.mp h

theorem text_overlaid (htree : ∀ names e, tree names = some e → ∃ texts, names = located texts)
    (h : overlaid (generated main ps) tree names = some e) : ∃ texts, names = located texts := by
  rcases overlaid_cases h with ⟨f, hf, rfl, _⟩ | ⟨hp, _⟩ | h
  · rcases mem_generated.mp hf with rfl | ⟨p, _, rfl⟩
    · exact ⟨_, rfl⟩
    · exact ⟨_, rfl⟩
  · exact ⟨_, located_initial hp⟩
  · exact htree names e h

theorem generated_below {f : Location × String} (hf : f ∈ generated main ps) {texts : List String}
    (he : f.1 = located texts) :
    texts = ["lib", "main.dart"] ∨ ∃ p ∈ ps, texts = ["lib", "screens", p.name.fileName] := by
  rcases mem_generated.mp hf with rfl | ⟨p, hp, rfl⟩
  · exact .inl (located_inj he).symm
  · exact .inr ⟨p, hp, (located_inj he).symm⟩

/-- What lies directly in the project is as in the skeleton, but for the directory of sources. -/
theorem overlaid_top {name : String} (hne : name ≠ "lib") :
    overlaid (generated main ps) tree (located [name]) = tree (located [name]) := by
  rw [overlaid_other, if_neg]
  · intro hp
    have hnames := located_inj (located_initial hp)
    simp [located, hne] at hnames
  · intro f hf he
    rcases generated_below hf he with h | ⟨p, _, h⟩
    · simp at h
    · simp at h

theorem overlaid_sources :
    overlaid (generated main ps) tree (located ["lib"]) = some .directory := by
  rw [overlaid_other, if_pos]
  · exact List.prefix_append (located ["lib"]) (located ["screens"])
  · intro f hf he
    rcases generated_below hf he with h | ⟨p, _, h⟩
    · simp at h
    · simp at h

theorem overlaid_screens :
    overlaid (generated main ps) tree (located ["lib", "screens"]) = some .directory := by
  rw [overlaid_other, if_pos (List.prefix_refl _)]
  intro f hf he
  rcases generated_below hf he with h | ⟨p, _, h⟩
  · simp at h
  · simp at h

/-- What a project with a made skeleton consists of, in the order of a walk. -/
def madeItems (main manifest options ignored readme : String) (sorted : List Page) :
    List (List String × Entry) :=
  [([".gitignore"], .file (.ofText ignored)), (["README.md"], .file (.ofText readme)),
    (["analysis_options.yaml"], .file (.ofText options)), (["lib"], .directory),
    (["lib", "main.dart"], .file (.ofText main)), (["lib", "screens"], .directory)] ++
  sorted.map (fun p => (["lib", "screens", p.name.fileName], .file (.ofText p.source))) ++
  [(["pubspec.yaml"], .file (.ofText manifest))]

section Made

variable {manifest options ignored readme : String} {sorted : List Page} {texts : List String}

theorem overlaid_of_madeItems (hperm : sorted.Perm ps)
    (hnodup : ((generated main ps).map Prod.fst).Nodup)
    (h : (texts, e) ∈ madeItems main manifest options ignored readme sorted) :
    texts ≠ [] ∧ overlaid (generated main ps)
      (provided (madeFiles manifest options ignored readme)) (located texts) = some e := by
  have hpaths : ((madeFiles manifest options ignored readme).map SourceFile.path).Nodup := by
    simp [madeFiles]
  have hprovided (file : SourceFile) (hf : file ∈ madeFiles manifest options ignored readme)
      (hne : file.path ≠ "lib") :
      overlaid (generated main ps) (provided (madeFiles manifest options ignored readme))
        (located [file.path]) = some (.file (.ofText file.content)) := by
    rw [overlaid_top hne]
    exact provided_file hpaths hf
  have hgenerated (f : Location × String) (hf : f ∈ generated main ps) :
      overlaid (generated main ps) (provided (madeFiles manifest options ignored readme)) f.1 =
        some (.file (.ofText f.2)) := overlaid_file hnodup hf
  simp only [madeItems, List.mem_append, List.mem_cons, List.mem_map, List.not_mem_nil, or_false,
    Prod.mk.injEq] at h
  rcases h with ((⟨rfl, rfl⟩ | ⟨rfl, rfl⟩ | ⟨rfl, rfl⟩ | ⟨rfl, rfl⟩ | ⟨rfl, rfl⟩ | ⟨rfl, rfl⟩) |
    ⟨p, hp, rfl, rfl⟩) | ⟨rfl, rfl⟩
  · exact ⟨by simp, hprovided ⟨".gitignore", ignored⟩ (by simp [madeFiles]) (by simp)⟩
  · exact ⟨by simp, hprovided ⟨"README.md", readme⟩ (by simp [madeFiles]) (by simp)⟩
  · exact ⟨by simp, hprovided ⟨"analysis_options.yaml", options⟩ (by simp [madeFiles]) (by simp)⟩
  · exact ⟨by simp, overlaid_sources⟩
  · exact ⟨by simp, hgenerated _ (mem_generated.mpr (.inl rfl))⟩
  · exact ⟨by simp, overlaid_screens⟩
  · exact ⟨by simp, hgenerated _ (mem_generated.mpr (.inr ⟨p, hperm.mem_iff.mp hp, rfl⟩))⟩
  · exact ⟨by simp, hprovided ⟨"pubspec.yaml", manifest⟩ (by simp [madeFiles]) (by simp)⟩

theorem madeItems_of_overlaid (hperm : sorted.Perm ps) (hne : texts ≠ [])
    (h : overlaid (generated main ps) (provided (madeFiles manifest options ignored readme))
      (located texts) = some e) :
    (texts, e) ∈ madeItems main manifest options ignored readme sorted := by
  simp only [madeItems, List.mem_append, List.mem_cons, List.mem_map, List.not_mem_nil, or_false,
    Prod.mk.injEq]
  rcases overlaid_cases h with ⟨f, hf, hname, rfl⟩ | ⟨hp, rfl⟩ | h
  · rcases mem_generated.mp hf with rfl | ⟨p, hp, rfl⟩
    · obtain rfl := located_inj hname
      simp
    · obtain rfl := located_inj hname
      exact .inl (.inr ⟨p, hperm.mem_iff.mpr hp, rfl, rfl⟩)
  · have hname := located_inj (located_initial hp)
    have hlen : texts.length ≤ 2 := by simpa [located] using hp.length_le
    have hpos : 0 < texts.length := List.length_pos_iff.mpr hne
    obtain h1 | h2 : texts.length = 1 ∨ texts.length = 2 := by omega
    · simp [located, h1] at hname
      simp [hname]
    · simp [located, h2] at hname
      simp [hname]
  · rw [provided, if_neg (by simpa [located] using hne)] at h
    obtain ⟨file, hfile, rfl⟩ := Option.map_eq_some_iff.mp h
    have hname : [Text.bytesOf file.path] = located texts := by simpa using List.find?_some hfile
    obtain rfl : [file.path] = texts := located_inj hname
    have hmem := List.mem_of_find?_eq_some hfile
    simp only [madeFiles, List.mem_cons, List.not_mem_nil, or_false] at hmem
    rcases hmem with rfl | rfl | rfl | rfl <;> simp

end Made

/-- The pages of a project by the bytes of their files' names. -/
def byFileName (ps : List Page) : List Page :=
  ps.insertionSort fun p q => Text.bytesOf p.name.fileName ≤ Text.bytesOf q.name.fileName

theorem byFileName_ordered (h : (ps.map fun p => p.name.fileName).Nodup) :
    (byFileName ps).Pairwise fun p q =>
      Text.bytesOf p.name.fileName < Text.bytesOf q.name.fileName :=
  insertionSort_ordered ((List.pairwise_map.mp h).imp fun hne he => hne (bytesOf_inj he))

theorem madeItems_ordered {manifest options ignored readme : String} {sorted : List Page}
    (h : sorted.Pairwise fun p q =>
      Text.bytesOf p.name.fileName < Text.bytesOf q.name.fileName) :
    (madeItems main manifest options ignored readme sorted).Pairwise
      fun e f => located e.1 < located f.1 := by
  have hscreens (p : Page) : located ["lib", "screens"] < pageNames p :=
    lt_iff.mpr (.inl ⟨[Text.bytesOf p.name.fileName], by simp, rfl⟩)
  have hlast (p : Page) : pageNames p < located ["pubspec.yaml"] :=
    List.cons_lt_cons_iff.mpr (.inl (by decide +kernel))
  have hpages : (sorted.map pageNames).Pairwise (· < ·) := by
    refine List.pairwise_map.mpr (h.imp fun hlt => lt_iff.mpr (.inr ?_))
    exact ⟨located ["lib", "screens"], _, _, [], [], rfl, rfl, hlt⟩
  have hfirst : ([[".gitignore"], ["README.md"], ["analysis_options.yaml"], ["lib"],
      ["lib", "main.dart"], ["lib", "screens"]].map located).Pairwise (· < ·) := by decide +kernel
  have hbefore : ∀ loc ∈ [[".gitignore"], ["README.md"], ["analysis_options.yaml"], ["lib"],
      ["lib", "main.dart"], ["lib", "screens"]].map located,
      loc ≤ located ["lib", "screens"] ∧ loc < located ["pubspec.yaml"] := by decide +kernel
  have hall : ((madeItems main manifest options ignored readme sorted).map fun e =>
      located e.1).Pairwise (· < ·) := by
    simp only [madeItems, List.map_append, List.map_map, Function.comp_def]
    refine List.pairwise_append.mpr ⟨List.pairwise_append.mpr ⟨hfirst, hpages, ?_⟩, by simp, ?_⟩
    · intro loc hloc other hother
      obtain ⟨p, _, rfl⟩ := List.mem_map.mp hother
      exact List.lt_of_le_of_lt (hbefore loc hloc).1 (hscreens p)
    · intro loc hloc other hother
      obtain rfl := List.mem_singleton.mp hother
      rcases List.mem_append.mp hloc with hloc | hloc
      · exact (hbefore loc hloc).2
      · obtain ⟨p, _, rfl⟩ := List.mem_map.mp hloc
        exact hlast p
  exact List.pairwise_map.mp hall

/-- The entries of a project with a made skeleton, in the order of a walk. -/
def madeEntries (level : Int64) (main manifest options ignored readme : String)
    (sorted : List Page) : Archive :=
  [file level ".gitignore" ignored, file level "README.md" readme,
    file level "analysis_options.yaml" options, directory "lib/", file level "lib/main.dart" main,
    directory "lib/screens/"] ++
  sorted.map (fun p => file level p.path p.source) ++
  [file level "pubspec.yaml" manifest]

theorem entryFor_madeItems (manifest options ignored readme : String) (sorted : List Page) :
    (madeItems main manifest options ignored readme sorted).map (fun e =>
      entryFor level e.1 e.2) = madeEntries level main manifest options ignored readme sorted := by
  unfold madeItems madeEntries
  simp only [List.map_append, List.map_map, Function.comp_def]
  rfl

/-- In a project with a made skeleton nothing is left open. -/
theorem Shows.made {manifest options ignored readme : String}
    (h : Shows level (overlaid (generated main ps)
      (provided (madeFiles manifest options ignored readme))) es)
    (hnodup : ((generated main ps).map Prod.fst).Nodup) {sorted : List Page}
    (hperm : sorted.Perm ps) (hordered : sorted.Pairwise fun p q =>
      Text.bytesOf p.name.fileName < Text.bytesOf q.name.fileName) :
    es = madeEntries level main manifest options ignored readme sorted := by
  obtain ⟨items, rfl, hitems, hmem⟩ := h
  have hsame : items = madeItems main manifest options ignored readme sorted := by
    refine eq_of_ordered hitems (madeItems_ordered hordered) ?_
    rintro ⟨texts, e⟩
    rw [hmem]
    exact ⟨fun h => madeItems_of_overlaid hperm h.1 h.2, overlaid_of_madeItems hperm hnodup⟩
  rw [hsame, entryFor_madeItems]

theorem Shows.own (h : Shows level (overlaid (generated main ps) tree) es)
    (hnodup : ((generated main ps).map Prod.fst).Nodup) {texts : List String} {text : String}
    (hne : texts ≠ []) (hf : (located texts, text) ∈ generated main ps) :
    file level ("/".intercalate texts) text ∈ es := by
  obtain ⟨items, rfl, _, hmem⟩ := h
  exact List.mem_map.mpr ⟨_, (hmem texts _).mpr ⟨hne, overlaid_file hnodup hf⟩, rfl⟩

end Screenwright.Proofs.Contents
