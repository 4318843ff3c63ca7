import Screenwright.Files.Address
import Screenwright.Files.Content
import Screenwright.Keyed

namespace Screenwright.Files

inductive Entry where
  | file (content : Content)
  | link (target : List UInt8)
  | directory

def Entry.isDirectory : Entry → Bool
  | .directory => true
  | _ => false

theorem Entry.eq_directory {e : Entry} (h : e.isDirectory = true) : e = .directory := by
  cases e <;> simp [isDirectory] at h ⊢

/-- Entries by location. Every one has a name and lies in a directory; the root is a directory
without an entry of its own. -/
structure FileSystem where
  entries : List (Location × Entry)
  nodup : (entries.map Prod.fst).Nodup
  rooted : ∀ e ∈ entries, e.1 ≠ [] ∧
    (e.1.dropLast = [] ∨ (e.1.dropLast, Entry.directory) ∈ entries)
  named : ∀ e ∈ entries, ∀ n ∈ e.1, FileName.isProper n = true
  /-- What the disk has no room for, wherever it is to go. -/
  lacksRoom : Location → Entry → Bool := fun _ _ => false

namespace FileSystem

def empty : FileSystem where
  entries := []
  nodup := by simp
  rooted := by simp
  named := by simp

instance : EmptyCollection FileSystem := ⟨empty⟩

instance : Inhabited FileSystem := ⟨empty⟩

def get? (fs : FileSystem) (loc : Location) : Option Entry :=
  if loc = [] then some .directory
  else (fs.entries.find? (·.1 = loc)).map Prod.snd

def isDirectory (fs : FileSystem) (loc : Location) : Bool :=
  (fs.get? loc).any Entry.isDirectory

/-- Whether an entry may go to a location: not where its directory is missing or where a directory
would be lost. -/
def admits (fs : FileSystem) (loc : Location) (e : Entry) : Bool :=
  loc ≠ [] && loc.all FileName.isProper && fs.isDirectory loc.dropLast &&
    (e.isDirectory || !fs.isDirectory loc)

theorem mem_of_isDirectory {fs : FileSystem} {loc : Location} (h : fs.isDirectory loc = true) :
    loc = [] ∨ (loc, Entry.directory) ∈ fs.entries := by
  unfold isDirectory get? at h
  split at h
  · exact .inl ‹_›
  · right
    cases hf : fs.entries.find? (·.1 = loc) with
    | none => simp [hf] at h
    | some e =>
      simp only [hf, Option.map_some, Option.any_some] at h
      have hl : e.1 = loc := by simpa using List.find?_some hf
      have he := Entry.eq_directory h
      have hm := List.mem_of_find?_eq_some hf
      obtain ⟨l, d⟩ := e
      simp only at hl he
      exact hl ▸ he ▸ hm

theorem get?_of_mem {fs : FileSystem} {loc : Location} {e : Entry} (h : (loc, e) ∈ fs.entries) :
    fs.get? loc = some e := by
  have hne : loc ≠ [] := (fs.rooted _ h).1
  unfold get?
  rw [if_neg hne]
  have hn := fs.nodup
  generalize fs.entries = es at h hn
  induction es with
  | nil => simp at h
  | cons x xs ih =>
    simp only [List.map_cons, List.nodup_cons] at hn
    rcases List.mem_cons.mp h with rfl | hm
    · simp
    · have hx : x.1 ≠ loc := fun he => hn.1 (he ▸ List.mem_map_of_mem hm)
      simpa [List.find?_cons, hx] using ih hm hn.2

theorem isDirectory_of_mem {fs : FileSystem} {loc : Location}
    (h : (loc, Entry.directory) ∈ fs.entries) : fs.isDirectory loc = true := by
  simp [isDirectory, get?_of_mem h, Entry.isDirectory]

def put (fs : FileSystem) (loc : Location) (e : Entry) : FileSystem :=
  if h : fs.admits loc e then
    { entries := Keyed.put Prod.fst (loc, e) fs.entries
      nodup := Keyed.nodup_put fs.nodup
      rooted := by
        simp only [admits, ne_eq, Bool.and_eq_true, decide_eq_true_eq, Bool.or_eq_true,
          Bool.not_eq_true'] at h
        obtain ⟨⟨⟨hne, _⟩, hp⟩, hd⟩ := h
        have keep : ∀ p, p = [] ∨ (p, Entry.directory) ∈ fs.entries →
            p = [] ∨ (p, Entry.directory) ∈ Keyed.put Prod.fst (loc, e) fs.entries := by
          rintro p (rfl | hm)
          · exact .inl rfl
          · right
            by_cases hpl : p = loc
            · subst hpl
              rcases hd with he | hn
              · rw [Entry.eq_directory he]
                exact Keyed.mem_put_self _ _ _
              · simp [isDirectory_of_mem hm] at hn
            · exact Keyed.mem_put_of_mem hm hpl
        intro x hx
        rcases Keyed.eq_or_mem_of_mem_put hx with rfl | hm
        · exact ⟨hne, keep _ (mem_of_isDirectory hp)⟩
        · exact ⟨(fs.rooted x hm).1, keep _ (fs.rooted x hm).2⟩
      named := by
        simp only [admits, Bool.and_eq_true, List.all_eq_true] at h
        intro x hx
        rcases Keyed.eq_or_mem_of_mem_put hx with rfl | hm
        · exact h.1.1.2
        · exact fs.named x hm
      lacksRoom := fs.lacksRoom }
  else fs

/-- Takes away what lies at a location and everything below it. -/
def removeTree (fs : FileSystem) (loc : Location) : FileSystem where
  entries := fs.entries.filter fun e => !loc.isPrefixOf e.1
  nodup := fs.nodup.sublist (List.Sublist.map Prod.fst List.filter_sublist)
  rooted := by
    intro x hx
    obtain ⟨hm, hk⟩ := List.mem_filter.mp hx
    obtain ⟨hne, hp⟩ := fs.rooted x hm
    refine ⟨hne, hp.imp id fun hd => List.mem_filter.mpr ⟨hd, ?_⟩⟩
    simp only [Bool.not_eq_true', Bool.eq_false_iff, ne_eq, List.isPrefixOf_iff_prefix] at hk ⊢
    exact fun hpre => hk (hpre.trans (List.dropLast_prefix x.1))
  named := fun x hx => fs.named x (List.mem_filter.mp hx).1
  lacksRoom := fs.lacksRoom

/-- The order of a walk: a directory comes before what is in it, and the entries of a
directory go by the bytes of their names. -/
def walkOrder (a b : Location × Entry) : Bool := a.1 ≤ b.1

def insertInOrder (e : Location × Entry) : List (Location × Entry) → List (Location × Entry)
  | [] => [e]
  | f :: rest => if walkOrder e f then e :: f :: rest else f :: insertInOrder e rest

/-- What lies below a location, by its names from there, in the order of a walk. -/
def below (fs : FileSystem) (loc : Location) : List (Location × Entry) :=
  ((fs.entries.filter fun e => loc.isPrefixOf e.1 && e.1 ≠ loc).map fun e =>
    (e.1.drop loc.length, e.2)).foldr insertInOrder []

def names (fs : FileSystem) (loc : Location) : List FileName :=
  ((fs.below loc).filter (·.1.length = 1)).flatMap Prod.fst

end FileSystem
end Screenwright.Files
