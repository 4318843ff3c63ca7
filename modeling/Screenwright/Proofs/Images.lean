import Screenwright.Proofs.Contents
import Screenwright.Proofs.Writes

namespace Screenwright.Proofs.Images
open Files FileSystem FileAction Address Export
open Entries Running Trees Listing Skeletons Packing Assembling Contents Writes

/-- A walk comes to a directory before what is in it, and to what lies side by side by the bytes of
names. -/
inductive Before : Location → Location → Prop
  | within {names more} : more ≠ [] → Before names (names ++ more)
  | beside {front m n ms ns} : m < n → Before (front ++ m :: ms) (front ++ n :: ns)

/-- An entry for what lies in a tree. Where the names are text, it is called by them. -/
inductive Portrays (tree : Tree) (names : Location) : Archive.Entry Content → Prop
  | directory {name method} : tree names = some .directory →
      (∀ texts, names = located texts → name = "/".intercalate texts ++ "/") →
      Portrays tree names ⟨name, method, none⟩
  | file {name method content} : tree names = some (.file content) →
      (∀ texts, names = located texts → name = "/".intercalate texts) →
      Portrays tree names ⟨name, method, some content⟩

/-- All directories and files in a tree, in the order of a walk. -/
structure Sites (tree : Tree) (sites : List Location) : Prop where
  ordered : sites.Pairwise Before
  all : ∀ names, names ∈ sites ↔ names ≠ [] ∧
    (tree names = some .directory ∨ ∃ content, tree names = some (.file content))
  links : ∀ names target more, tree names = some (.link target) → names ++ more ∉ sites

/-- An archive of all directories and files in a tree, with one entry for each. -/
structure Image (tree : Tree) (es : Archive) : Prop where
  entries : ∃ sites, Sites tree sites ∧ List.Forall₂ (Portrays tree) sites es
  nodup : (es.map (·.name)).Nodup

/-- What lies in a directory, with a file put at a location that may be in it. -/
def joined (there spot : Location) (content : Content) (fs : FileSystem) : Tree := fun names =>
  if there ++ names = spot then some (.file content) else fs.get? (there ++ names)

/-- What packing a directory does. A file holds an archive of what lies in the directory, and
nothing else has changed. That file may lie in the directory itself and is packed then, whatever it
holds at that time. -/
structure Packs (root target : Address) (before after : FileSystem) (there spot : Location)
    (es : Archive) : Prop where
  source : ∃ e, resolve before true root = .ok ⟨there, e⟩
  place : ∃ e, resolve before true target = .ok ⟨spot, e⟩
  archive : after.get? spot = some (.file (.archive es))
  elsewhere : ∀ other, other ≠ spot → after.get? other = before.get? other
  image : ∃ own, Image (joined there spot own before) es

variable {before after fs made : FileSystem} {root target : Address} {there spot names : Location}
variable {level : Int64} {deadline : Deadline} {es archive : Archive} {tree : Tree} {e : Entry}

theorem before_of_lt {others : Location} (h : names < others) : Before names others := by
  rcases lt_iff.mp h with ⟨more, hne, rfl⟩ | ⟨front, m, n, ms, ns, rfl, rfl, hlt⟩
  · exact .within hne
  · exact .beside hlt

theorem portrays_entryOf (h : tree names = some e) (hkind : isPacked e = true) :
    Portrays tree names (entryOf level names e) := by
  cases e with
  | link target => cases hkind
  | directory =>
    refine .directory h ?_
    rintro texts rfl
    rw [entryName_located]
  | file content =>
    refine .file h ?_
    rintro texts rfl
    rw [entryName_located]

theorem inside_above {more : Location} (hne : more ≠ [])
    (h : inside there fs (names ++ more) = some e) : inside there fs names = some .directory := by
  rw [inside, ← List.append_assoc] at h
  exact get?_above h hne

theorem sites_of_items {items : List (Location × Entry)} (hordered : items.Pairwise (·.1 < ·.1))
    (hmem : ∀ names e, (names, e) ∈ items ↔
      names ≠ [] ∧ copied (inside there fs) names = some e) :
    Sites (inside there fs) (items.map Prod.fst) := by
  have hsite (names : Location) : names ∈ items.map Prod.fst ↔
      ∃ e, names ≠ [] ∧ inside there fs names = some e ∧ isPacked e = true := by
    rw [List.mem_map]
    constructor
    · rintro ⟨⟨names, e⟩, he, rfl⟩
      obtain ⟨hne, hin⟩ := (hmem names e).mp he
      exact ⟨e, hne, (copied_eq hne).mp hin⟩
    · rintro ⟨e, hne, hin⟩
      exact ⟨(names, e), (hmem names e).mpr ⟨hne, (copied_eq hne).mpr hin⟩, rfl⟩
  constructor
  case ordered => exact List.pairwise_map.mpr (hordered.imp before_of_lt)
  case all =>
    intro names
    rw [hsite]
    constructor
    · rintro ⟨e, hne, hin, hkind⟩
      cases e with
      | directory => exact ⟨hne, .inl hin⟩
      | file content => exact ⟨hne, .inr ⟨content, hin⟩⟩
      | link target => cases hkind
    · rintro ⟨hne, hin | ⟨content, hin⟩⟩
      · exact ⟨_, hne, hin, rfl⟩
      · exact ⟨_, hne, hin, rfl⟩
  case links =>
    intro names target more hlink hmore
    obtain ⟨e, _, hin, hkind⟩ := (hsite _).mp hmore
    by_cases hnil : more = []
    · rw [hnil, List.append_nil, hlink] at hin
      cases hin
      cases hkind
    · rw [inside_above hnil hin] at hlink
      cases hlink

theorem image_of_lists (h : Lists level (copied (inside there fs)) es) :
    Image (inside there fs) es := by
  obtain ⟨⟨items, rfl, hordered, hmem⟩, hnodup⟩ := h
  refine ⟨⟨items.map Prod.fst, sites_of_items hordered hmem, ?_⟩, hnodup⟩
  rw [List.forall₂_map_left_iff, List.forall₂_map_right_iff, List.forall₂_same]
  rintro ⟨names, e⟩ he
  obtain ⟨hne, hin⟩ := (hmem names e).mp he
  obtain ⟨hin, hkind⟩ := (copied_eq hne).mp hin
  exact portrays_entryOf hin hkind

theorem packEntries_wrote {entries : List (Location × Entry)} {unit : Nat}
    (hwrote : Wrote target (.archive archive) spot before fs)
    (h : (packEntries level deadline target unit archive entries).runOn fs = (.ok es, after)) :
    Wrote target (.archive es) spot before after := by
  induction entries generalizing unit archive fs with
  | nil =>
    cases h
    exact hwrote
  | cons entry entries ih =>
    unfold packEntries at h
    obtain ⟨_, _, h⟩ := ofExcept_bind_ok h
    obtain ⟨found, _, h⟩ := ofExcept_bind_ok h
    cases found with
    | none => exact ih hwrote h
    | some e =>
      obtain ⟨more, _, h⟩ := ofExcept_bind_ok h
      obtain ⟨_, _, hput, h⟩ := runOn_bind_ok h
      exact ih (hwrote.again (runOn_mapError_ok hput)) h

/-- A directory that is packed has been listed once its archive was made. -/
theorem package_ok {n : Nat}
    (h : (package level deadline root target).runOn before = (.ok n, after)) :
    ∃ made p es, (putFile target (.archive [])).runOn before = (.ok (), made) ∧
      resolve made true root = .ok p ∧
      (packEntries level deadline target 0 [] (made.below p.location)).runOn made =
        (.ok es, after) ∧ es.length = n := by
  unfold package at h
  obtain ⟨_, made, hput, h⟩ := runOn_bind_ok h
  obtain ⟨_, _, hget, h⟩ := runOn_bind_ok h
  cases hget
  cases hlist : (listTree root).runOn made with
  | mk r listed =>
    rw [hlist] at h
    cases r with
    | error cause =>
      obtain ⟨_, _, _, h⟩ := runOn_bind_ok h
      cases h
    | ok entries =>
      dsimp only at h
      obtain ⟨es, last, hpack, hcount⟩ := runOn_bind_ok h
      cases hcount
      obtain ⟨p, hr, rfl⟩ := listTree_ok (congrArg Prod.fst hlist)
      exact ⟨made, p, es, runOn_mapError_ok hput, hr, hpack, rfl⟩

theorem inside_made {content : Content} (h : Wrote target content spot before made) :
    inside there made = joined there spot content before := by
  funext names
  unfold inside joined
  split
  · next hspot => rw [hspot, h.holds]
  · next hspot => exact h.same.elsewhere _ hspot

/-- Packing any directory into any file gives an image of what lies in the directory, with as many
entries as are counted, and changes nothing but that file. -/
theorem package_image (level : Int64) (deadline : Deadline) (root target : Address)
    (before after : FileSystem) (n : Nat)
    (h : (package level deadline root target).runOn before = (.ok n, after)) :
    ∃ there spot es, Packs root target before after there spot es ∧ es.length = n := by
  obtain ⟨made, p, es, hput, hroot, hpack, hcount⟩ := package_ok h
  obtain ⟨spot, hmade⟩ := putFile_wrote hput
  obtain ⟨e, hbefore, _⟩ := hmade.same.symm.resolve_ok hroot
  have hdone := packEntries_wrote hmade hpack
  have himage := image_of_lists (lists_packed (congrArg Prod.fst hpack))
  rw [inside_made hmade] at himage
  exact ⟨p.location, spot, es,
    ⟨⟨e, hbefore⟩, hdone.led, hdone.holds, hdone.same.elsewhere, _, himage⟩, hcount⟩

/-- A directory with an empty one, a file that comes behind the directory of the same beginning, a
link, and a name that is no text. -/
def mixed : FileSystem :=
  [(located ["tree"], .directory), (located ["tree", "empty"], .directory),
    (located ["tree", "lib.txt"], .file (.ofText "notes")), (located ["tree", "lib"], .directory),
    (located ["tree", "lib", "main.dart"], .file (.ofText "// start")),
    (located ["tree", "lib", "up"], .link (Text.bytesOf "..")),
    ([Text.bytesOf "tree", [0xff]], .file .empty)].foldl
    (fun fs (e : Location × Entry) => fs.put e.1 e.2) ∅

def packedRoot : Address := ⟨[], Text.bytesOf "/tree"⟩

def packedTarget : Address := ⟨[], Text.bytesOf "/out.zip"⟩

def namesIn (fs : FileSystem) (loc : Location) : List String :=
  match fs.get? loc with
  | some (.file (.archive es)) => es.map Archive.Entry.name
  | _ => []

theorem package_image_mixed :
    ∃ after, (package 0 {} packedRoot packedTarget).runOn mixed = (.ok 5, after) ∧
      namesIn after (located ["out.zip"]) =
        ["empty/", "lib/", "lib/main.dart", "lib.txt", "\ufffd"] ∧
      ∃ there spot es, Packs packedRoot packedTarget mixed after there spot es ∧ es.length = 5 := by
  have hchecked : (match (package 0 {} packedRoot packedTarget).runOn mixed with
      | (.ok n, after) => decide (n = 5) && decide (namesIn after (located ["out.zip"]) =
          ["empty/", "lib/", "lib/main.dart", "lib.txt", "\ufffd"])
      | (.error _, _) => false) = true := by decide +kernel
  cases hrun : (package 0 {} packedRoot packedTarget).runOn mixed with
  | mk r after =>
    rw [hrun] at hchecked
    cases r with
    | error e => cases hchecked
    | ok n =>
      simp only [Bool.and_eq_true, decide_eq_true_eq] at hchecked
      obtain ⟨rfl, hnames⟩ := hchecked
      exact ⟨after, rfl, hnames, package_image 0 {} packedRoot packedTarget mixed after 5 hrun⟩

end Screenwright.Proofs.Images
