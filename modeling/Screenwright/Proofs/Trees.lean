import Screenwright.Proofs.Building

namespace Screenwright.Proofs.Trees
open Files FileSystem FileAction Address Entries Walks Addresses Running Confinement Building

/-- What lies in a directory, by the names from there. -/
abbrev Tree := Location → Option Entry

def inside (loc : Location) (fs : FileSystem) : Tree := fun names => fs.get? (loc ++ names)

def place (names : Location) (e : Entry) (tree : Tree) : Tree := fun other =>
  if other = names then some e else tree other

/-- A tree with a directory put in and all that lead to it. -/
def clear (names : Location) (tree : Tree) : Tree := fun other =>
  if other <+: names then some .directory else tree other

@[simp] theorem place_place (names : Location) (e f : Entry) (tree : Tree) :
    place names e (place names f tree) = place names e tree := by
  funext other
  unfold place
  split <;> rfl

theorem clear_clear {names more : Location} (h : names <+: more) (tree : Tree) :
    clear more (clear names tree) = clear more tree := by
  funext other
  unfold clear
  split
  · rfl
  · next hn => rw [if_neg fun hp => hn (hp.trans h)]

variable {before fs : FileSystem} {a : Address} {loc names : Location}

theorem inside_put {e : Entry} (ha : fs.admits (loc ++ names) e = true) :
    inside loc (fs.put (loc ++ names) e) = place names e (inside loc fs) := by
  funext other
  simp [inside, place, get?_put ha]

theorem admits_iff {there : Location} {e : Entry} (h : fs.admits there e = true) :
    there ≠ [] ∧ fs.get? there.dropLast = some .directory ∧
      (e.isDirectory = true ∨ fs.get? there ≠ some .directory) := by
  simp only [admits, Bool.and_eq_true, Bool.or_eq_true, Bool.not_eq_true', decide_eq_true_eq] at h
  obtain ⟨⟨⟨hne, _⟩, hparent⟩, hkind⟩ := h
  refine ⟨hne, ?_, hkind.imp id fun hn he => ?_⟩
  · unfold FileSystem.isDirectory at hparent
    cases hg : fs.get? there.dropLast with
    | none => simp [hg] at hparent
    | some d =>
      rw [hg, Option.any_some] at hparent
      rw [Entry.eq_directory hparent]
  · simp [FileSystem.isDirectory, he, Entry.isDirectory] at hn

/-- All that leads to a directory is a directory. -/
theorem clear_inside (hd : inside loc fs names = some .directory) :
    clear names (inside loc fs) = inside loc fs := by
  funext other
  unfold clear
  split
  · next hp => exact (get?_ancestor hd ((List.prefix_append_right_inj loc).mpr hp)).symm
  · rfl

theorem runs_putEntry_inside (tree : Tree) (hne : names ≠ []) (content : Content) :
    Runs (Confined before loc) (inside loc · = tree) (putEntry (loc ++ names) (.file content))
      fun _ fs => inside loc fs = place names (.file content) tree ∧
        tree names ≠ some .directory := by
  refine runs_putEntry fun fs hi hp ha => ⟨hi.put ha (absurd · hne) (by simp), ?_, ?_⟩
  · rw [inside_put ha, hp]
  · rw [← hp]
    exact (admits_iff ha).2.2.resolve_left (by simp [Entry.isDirectory])

/-- An address that has been resolved while all was confined. -/
def Reached (before : FileSystem) (loc : Location) (target : Address) : Prop :=
  ∃ fs p, Confined before loc fs ∧ resolve fs true target = .ok p

/-- A file that is written is put in under its names, where no directory is. -/
theorem runs_putFile_inside (tree : Tree) (hs : Site before a loc) (hne : names ≠ [])
    (hn : ∀ n ∈ names, n.isProper = true) (content : Content) :
    Runs (Confined before loc) (inside loc · = tree) (putFile (below a names) content)
      fun _ fs => (inside loc fs = place names (.file content) tree ∧
        tree names ≠ some .directory) ∧ Reached before loc (below a names) := by
  have hfill (p : Place) (found : Content) :
      Runs (Confined before loc)
        (fun fs => (inside loc fs = tree ∧ resolve fs true (below a names) = .ok p) ∧
          found = content)
        (fillFile p.location found)
        fun _ fs => (inside loc fs = place names (.file content) tree ∧
          tree names ≠ some .directory) ∧ Reached before loc (below a names) := by
    intro fs hi hp
    obtain ⟨⟨htree, hr⟩, rfl⟩ := hp
    have hreached : Reached before loc (below a names) := ⟨fs, p, hi, hr⟩
    rw [hi.resolve_below hs hne hn hr]
    have hrun : Runs (Confined before loc) (inside loc · = tree) (fillFile (loc ++ names) found)
        fun _ fs => (inside loc fs = place names (.file found) tree ∧
          tree names ≠ some .directory) ∧ Reached before loc (below a names) := by
      refine (runs_putEntry_inside tree hne .empty).bind fun _ => ?_
      intro fs' hi' hp'
      obtain ⟨hin, hout⟩ := runs_putEntry_inside _ hne found fs' hi' hp'.1
      refine ⟨hin, fun u hu => ?_⟩
      rw [place_place] at hout
      exact ⟨⟨(hout u hu).1, hp'.2⟩, hreached⟩
    exact hrun fs hi htree
  unfold putFile
  refine (runs_look true _).bind fun p => ?_
  split
  · exact .throw _
  · exact (runs_checkFile _ content).bind fun found => hfill p found
  · split
    · exact .throw _
    · exact (hfill p content).then fun fs _ hp => ⟨hp, rfl⟩

theorem runs_createDirectory_inside (tree : Tree) (hs : Site before a loc)
    (hn : ∀ n ∈ names, n.isProper = true) :
    Runs (Confined before loc) (inside loc · = tree) (createDirectory (below a names))
      fun _ fs => inside loc fs = clear names tree := by
  intro fs hi htree
  refine ⟨keeps_createDirectory hs hn fs hi, ?_⟩
  rcases createDirectory_cases (below a names) fs with ⟨e, he⟩ | ⟨there, hr, ha, he⟩
  · rw [he]
    exact fun _ hu => nomatch hu
  · rw [he]
    intro _ _
    have hplace := hi.resolve_found hs hn hr
    obtain rfl : there = loc ++ names := congrArg Place.location hplace
    have hnone : none = fs.get? (loc ++ names) := congrArg Place.entry hplace
    have hnew : inside loc (fs.put (loc ++ names) .directory) names = some .directory := by
      rw [inside_put ha, place, if_pos rfl]
    rw [← clear_inside hnew, inside_put ha, htree]
    funext other
    unfold clear place
    split
    · rfl
    · next hp =>
      have hother : other ≠ names := by
        rintro rfl
        exact hp (List.prefix_refl _)
      rw [if_neg hother]

theorem runOn_isDirectory {ε : Type} (a : Address) (fs : FileSystem) :
    (isDirectory (ε := ε) a).runOn fs =
      (.ok (match resolve fs true a with
        | .ok p => p.entry.any Entry.isDirectory
        | .error _ => false), fs) := by
  unfold Files.isDirectory
  have hget (f : FileSystem → FileAction ε Bool) :
      (MonadState.get >>= f).runOn fs = (f fs).runOn fs := rfl
  rw [hget]
  cases resolve fs true a <;> rfl

theorem resolve_of_isDirectory {ε : Type} (h : ((isDirectory (ε := ε) a).runOn fs).1 = .ok true) :
    ∃ there, resolve fs true a = .ok ⟨there, some .directory⟩ := by
  rw [runOn_isDirectory] at h
  cases hr : resolve fs true a with
  | error e => simp [hr] at h
  | ok p =>
    obtain ⟨there, entry⟩ := p
    cases entry with
    | none => simp [hr] at h
    | some e =>
      have he : e.isDirectory = true := by simpa [hr] using h
      exact ⟨there, by rw [Entry.eq_directory he]⟩

theorem isDirectory_iff {ε : Type} (a : Address) (fs : FileSystem) :
    ∃ found, (isDirectory (ε := ε) a).runOn fs = (.ok found, fs) ∧
      (found = true ↔ ∃ there, resolve fs true a = .ok ⟨there, some .directory⟩) := by
  refine ⟨_, runOn_isDirectory a fs, fun h => ?_, fun ⟨there, hr⟩ => by rw [hr]; rfl⟩
  exact resolve_of_isDirectory (ε := ε) (by rw [runOn_isDirectory, h])

theorem runs_ensureDirectory {I P : FileSystem → Prop} {Q : Unit → FileSystem → Prop}
    (h : Runs I P (createDirectory a) Q)
    (hfound : ∀ fs there, I fs → P fs →
      resolve fs true a = .ok ⟨there, some .directory⟩ → Q () fs) :
    Runs I P (ensureDirectory a) Q := by
  intro fs hi hp
  have hmade := h fs hi hp
  rw [runOn_ensureDirectory]
  rcases createDirectory_cases a fs with ⟨e, he⟩ | ⟨_, _, _, he⟩
  · rw [he]
    dsimp only
    cases hd : (isDirectory (ε := FileError) a).runOn fs with
    | mk r after =>
      obtain rfl : after = fs := by simpa [runOn_isDirectory] using (congrArg Prod.snd hd).symm
      have hnone : I after ∧ ∀ u, (.error e : Except FileError Unit) = .ok u → Q u after :=
        ⟨hi, fun _ hu => nomatch hu⟩
      cases r with
      | error _ => exact hnone
      | ok found =>
        cases found with
        | false => exact hnone
        | true =>
          obtain ⟨there, hr⟩ := resolve_of_isDirectory (congrArg Prod.fst hd)
          exact ⟨hi, fun _ _ => hfound after there hi hp hr⟩
  · rw [he] at hmade ⊢
    exact hmade

theorem runs_ensureDirectory_inside (tree : Tree) (hs : Site before a loc)
    (hn : ∀ n ∈ names, n.isProper = true) :
    Runs (Confined before loc) (inside loc · = tree) (ensureDirectory (below a names))
      fun _ fs => inside loc fs = clear names tree := by
  have hmade := runs_createDirectory_inside tree hs hn
  refine runs_ensureDirectory hmade fun fs there hi htree hr => ?_
  rw [← htree]
  refine (clear_inside ?_).symm
  by_cases hne : names = []
  · simp [inside, hne, hi.made]
  · exact (congrArg Place.entry (hi.resolve_below hs hne hn hr)).symm

/-- The directories above an address are made before a directory at it, if need be. -/
theorem runs_createLineage_cons {I P P' : FileSystem → Prop} {Q : Unit → FileSystem → Prop}
    {above : List Address} (h : Runs I P (createDirectory a) Q)
    (hensure : Runs I P (ensureDirectory a) Q)
    (habove : Runs I P (createLineage above) fun _ => P')
    (hthen : Runs I P' (ensureDirectory a) Q) : Runs I P (createLineage (a :: above)) Q := by
  intro fs hi hp
  have hboth : Runs I P (createLineage above *> ensureDirectory a) Q := by
    rw [seqRight_eq_bind]
    exact habove.bind fun _ => hthen
  have hmade := h fs hi hp
  rw [runOn_createLineage]
  rcases createDirectory_cases a fs with ⟨e, he⟩ | ⟨there, _, _, he⟩
  · rw [he]
    split
    · next heq =>
      cases heq
      exact hboth fs hi hp
    · next heq =>
      cases heq
      exact hensure fs hi hp
    · next heq => cases heq
  · rw [he] at hmade ⊢
    exact hmade

theorem runs_createLineage_inside (tree : Tree) (hs : Site before a loc)
    (hn : ∀ n ∈ names, n.isProper = true) {count : Nat} (hcount : names.length < count) :
    Runs (Confined before loc) (inside loc · = tree)
      (createLineage (lineage count (below a names)))
      fun _ fs => inside loc fs = clear names tree := by
  induction count generalizing names with
  | zero => omega
  | succ count ih =>
    by_cases hne : names = []
    · subst hne
      have hensure := runs_ensureDirectory_inside tree hs (List.forall_mem_nil _)
      rw [below_nil] at hensure ⊢
      intro fs hi hp
      rw [lineage]
      split
      · refine ⟨hi, fun _ _ => ?_⟩
        change inside loc fs = clear [] tree
        rw [← hp]
        exact (clear_inside (by simp [inside, hi.made])).symm
      · rw [runOn_createLineage, runOn_createDirectory_home hs hi]
        exact hensure fs hi hp
    · rw [lineage, parent?_joined hs.settled hn hne]
      have hfront := @ih names.dropLast
        (fun n hmem => hn n ((List.dropLast_sublist names).subset hmem)) (by
          have := List.length_pos_iff.mpr hne
          rw [List.length_dropLast]
          omega)
      refine runs_createLineage_cons (runs_createDirectory_inside tree hs hn)
        (runs_ensureDirectory_inside tree hs hn) hfront ?_
      have hthen := runs_ensureDirectory_inside (clear names.dropLast tree) hs hn
      rwa [clear_clear (List.dropLast_prefix names)] at hthen

theorem runs_createDirectories_inside (tree : Tree) (hs : Site before a loc)
    (hn : ∀ n ∈ names, n.isProper = true) :
    Runs (Confined before loc) (inside loc · = tree) (createDirectories (below a names))
      fun _ fs => inside loc fs = clear names tree :=
  runs_createLineage_inside tree hs hn (hs.settled.length_lt names)

theorem runs_copyFile_inside (tree : Tree) (hs : Site before a loc) (hne : names ≠ [])
    (hn : ∀ n ∈ names, n.isProper = true) {source : Address} {content : Content}
    (hsource : ∀ fs found, Confined before loc fs →
      ((contentAt source).runOn fs).1 = .ok found → found = content) :
    Runs (Confined before loc) (inside loc · = tree) (copyFile source (below a names))
      fun _ fs => inside loc fs = place names (.file content) tree ∧
        tree names ≠ some .directory := by
  have hread {P : FileSystem → Prop} :
      Runs (Confined before loc) P (contentAt source) fun found fs => P fs ∧ found = content := by
    intro fs hi hp
    have hsame : ((contentAt source).runOn fs).2 = fs :=
      keeps_contentAt (I := (· = fs)) source fs rfl
    rw [hsame]
    exact ⟨hi, fun found he => ⟨hp, hsource fs found hi he⟩⟩
  have hfirst : Runs (Confined before loc) (inside loc · = tree) (discard (contentAt source))
      fun _ fs => inside loc fs = tree := hread.bind fun _ => .pure fun _ hp => hp.1
  unfold copyFile
  refine hfirst.bind fun _ => (runs_putFile_inside tree hs hne hn .empty).bind fun _ => ?_
  refine hread.bind fun found => ?_
  intro fs hi hp
  obtain ⟨⟨⟨hin, hfree⟩, _⟩, rfl⟩ := hp
  obtain ⟨hi', hput⟩ := runs_putFile_inside _ hs hne hn found fs hi hin
  refine ⟨hi', fun u hu => ⟨?_, hfree⟩⟩
  rw [(hput u hu).1.1, place_place]

variable {front : Location} {Φ Ψ : Tree → Prop}

theorem clear_within {after : FileSystem}
    (h : inside loc after = clear (front ++ names) (inside loc fs)) :
    inside (loc ++ front) after = clear names (inside (loc ++ front) fs) := by
  funext other
  have hother := congrFun h (front ++ other)
  simpa [inside, clear, List.prefix_append_right_inj] using hother

theorem place_within {after : FileSystem} {e : Entry}
    (h : inside loc after = place (front ++ names) e (inside loc fs)) :
    inside (loc ++ front) after = place names e (inside (loc ++ front) fs) := by
  funext other
  have hother := congrFun h (front ++ other)
  simpa [inside, place] using hother

/-- What is made below a directory, seen from a directory in it. -/
theorem runs_clear (hs : Site before a loc) (hf : ∀ n ∈ front, n.isProper = true)
    (hn : ∀ n ∈ names, n.isProper = true) (h : ∀ tree, Φ tree → Ψ (clear names tree)) :
    Runs (Confined before loc) (fun fs => Φ (inside (loc ++ front) fs))
      (createDirectories (below a (front ++ names)))
      fun _ fs => Ψ (inside (loc ++ front) fs) := by
  intro fs hi hp
  have hall := proper_append hf hn
  obtain ⟨hi', hq⟩ := runs_createDirectories_inside (inside loc fs) hs hall fs hi rfl
  refine ⟨hi', fun u hu => ?_⟩
  dsimp only
  rw [clear_within (hq u hu)]
  exact h _ hp

theorem runs_place (hs : Site before a loc) (hf : ∀ n ∈ front, n.isProper = true)
    (hn : ∀ n ∈ names, n.isProper = true) (hne : names ≠ []) (content : Content)
    (h : ∀ tree, Φ tree → tree names ≠ some .directory → Ψ (place names (.file content) tree)) :
    Runs (Confined before loc) (fun fs => Φ (inside (loc ++ front) fs))
      (putFile (below a (front ++ names)) content)
      fun _ fs => Ψ (inside (loc ++ front) fs) := by
  intro fs hi hp
  have hall := proper_append hf hn
  obtain ⟨hi', hq⟩ := runs_putFile_inside (inside loc fs) hs (by simp [hne]) hall content
    fs hi rfl
  refine ⟨hi', fun u hu => ?_⟩
  obtain ⟨⟨hin, hfree⟩, _⟩ := hq u hu
  rw [place_within hin]
  exact h _ hp (by simpa [inside] using hfree)

theorem runs_copy (hs : Site before a loc) (hf : ∀ n ∈ front, n.isProper = true)
    (hn : ∀ n ∈ names, n.isProper = true) (hne : names ≠ []) {source : Address} {content : Content}
    (hsource : ∀ fs found, Confined before loc fs →
      ((contentAt source).runOn fs).1 = .ok found → found = content)
    (h : ∀ tree, Φ tree → tree names ≠ some .directory → Ψ (place names (.file content) tree)) :
    Runs (Confined before loc) (fun fs => Φ (inside (loc ++ front) fs))
      (copyFile source (below a (front ++ names)))
      fun _ fs => Ψ (inside (loc ++ front) fs) := by
  intro fs hi hp
  have hall := proper_append hf hn
  obtain ⟨hi', hq⟩ := runs_copyFile_inside (inside loc fs) hs (by simp [hne]) hall hsource
    fs hi rfl
  refine ⟨hi', fun u hu => ?_⟩
  obtain ⟨hin, hfree⟩ := hq u hu
  rw [place_within hin]
  exact h _ hp (by simpa [inside] using hfree)

end Screenwright.Proofs.Trees
