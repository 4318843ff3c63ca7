import Screenwright.Proofs.Running
import Screenwright.Proofs.Walks

namespace Screenwright.Proofs.Writes
open Files FileSystem FileAction Address Entries Walks Running

/-- File systems that are the same but for a location where each has a file, or nothing at all. -/
structure SameBut (loc : Location) (fs fs' : FileSystem) : Prop where
  first : ∀ e, fs.get? loc = some e → ∃ content, e = .file content
  second : ∀ e, fs'.get? loc = some e → ∃ content, e = .file content
  elsewhere : ∀ other, other ≠ loc → fs'.get? other = fs.get? other

/-- A file has been written where an address leads, and nothing else has changed. -/
structure Wrote (a : Address) (content : Content) (loc : Location) (fs fs' : FileSystem) :
    Prop where
  led : ∃ e, resolve fs true a = .ok ⟨loc, e⟩
  leads : resolve fs' true a = .ok ⟨loc, some (.file content)⟩
  same : SameBut loc fs fs'

variable {fs fs' : FileSystem} {loc other : Location} {content : Content} {links : Nat}
variable {here : Location} {steps : List Segment} {p : Place} {a : Address}

theorem SameBut.symm (h : SameBut loc fs fs') : SameBut loc fs' fs :=
  ⟨h.second, h.first, fun other ho => (h.elsewhere other ho).symm⟩

theorem SameBut.kept (h : SameBut loc fs fs') {e : Entry} (he : fs.get? other = some e)
    (hf : ∀ content, e ≠ .file content) : fs'.get? other = some e := by
  rw [h.elsewhere other, he]
  rintro rfl
  obtain ⟨content, rfl⟩ := h.first e he
  exact hf content rfl

/-- Where there is a file or nothing, there still is. -/
theorem SameBut.loose (h : SameBut loc fs fs')
    (hl : ∀ e, fs.get? other = some e → ∃ content, e = .file content) :
    ∀ e, fs'.get? other = some e → ∃ content, e = .file content := by
  by_cases ho : other = loc
  · exact ho ▸ h.second
  · rwa [h.elsewhere other ho]

theorem leads_loose {n : FileName} (hn : n.length ≤ nameLimit)
    (hl : ∀ e, fs.get? (here ++ [n]) = some e → ∃ content, e = .file content) :
    ∃ e, Leads fs true links here [.name n] ⟨here ++ [n], e⟩ ∧ e ≠ some .directory := by
  cases hg : fs.get? (here ++ [n]) with
  | none => exact ⟨none, .absent hn hg, by simp⟩
  | some e =>
    obtain ⟨content, rfl⟩ := hl e hg
    exact ⟨_, .file hn hg, by simp⟩

/-- Steps lead to the same location, and to a directory there if they did. -/
theorem SameBut.leads (hs : SameBut loc fs fs') (h : Leads fs true links here steps p) :
    ∃ e, Leads fs' true links here steps ⟨p.location, e⟩ ∧
      (e = some .directory ↔ p.entry = some .directory) := by
  induction h with
  | stop => exact ⟨_, .stop, Iff.rfl⟩
  | stay _ ih =>
    obtain ⟨e, h, he⟩ := ih
    exact ⟨e, .stay h, he⟩
  | up _ ih =>
    obtain ⟨e, h, he⟩ := ih
    exact ⟨e, .up h, he⟩
  | @absent links here n hn hg =>
    have hloose : ∀ e, fs.get? (here ++ [n]) = some e → ∃ content, e = .file content := by
      simp [hg]
    obtain ⟨e, h, he⟩ := leads_loose hn (hs.loose hloose)
    exact ⟨e, h, by simp [he]⟩
  | enter hn hg _ ih =>
    obtain ⟨e, h, he⟩ := ih
    exact ⟨e, .enter hn (hs.kept hg (by simp)) h, he⟩
  | @file links here n content hn hg =>
    have hloose : ∀ e, fs.get? (here ++ [n]) = some e → ∃ content, e = .file content := by
      simp [hg]
    obtain ⟨e, h, he⟩ := leads_loose hn (hs.loose hloose)
    exact ⟨e, h, by simp [he]⟩
  | link _ hf _ => cases hf
  | through hn hr hg _ ih =>
    obtain ⟨e, h, he⟩ := ih
    exact ⟨e, .through hn hr (hs.kept hg (by simp)) h, he⟩

theorem SameBut.resolve_ok (hs : SameBut loc fs fs') (h : resolve fs true a = .ok p) :
    ∃ e, resolve fs' true a = .ok ⟨p.location, e⟩ ∧
      (e = some .directory ↔ p.entry = some .directory) := by
  obtain ⟨hz, hne, hl, hw⟩ := resolve_ok_iff.mp h
  obtain ⟨e, hw', he⟩ := hs.leads hw
  exact ⟨e, resolve_ok_iff.mpr ⟨hz, hne, hl, hw'⟩, he⟩

theorem leads_plain (h : Leads fs true links here steps p) (hd : p.entry ≠ some .directory) :
    fs.get? p.location = p.entry ∧ ∀ e, p.entry = some e → ∃ c, e = .file c := by
  induction h with
  | stop => exact absurd rfl hd
  | stay _ ih => exact ih hd
  | up _ ih => exact ih hd
  | absent _ hg => exact ⟨hg, by simp⟩
  | enter _ _ _ ih => exact ih hd
  | file _ hg => exact ⟨hg, by simp⟩
  | link _ hf _ => cases hf
  | through _ _ _ _ ih => exact ih hd

theorem resolve_plain (h : resolve fs true a = .ok p) (hd : p.entry ≠ some .directory) :
    fs.get? p.location = p.entry ∧ ∀ e, p.entry = some e → ∃ c, e = .file c :=
  leads_plain (resolve_ok_iff.mp h).2.2.2 hd

theorem putEntry_ok {e : Entry} (h : (putEntry loc e).runOn fs = (.ok (), fs')) :
    ∀ other, fs'.get? other = if other = loc then some e else fs.get? other := by
  rcases putEntry_cases loc e fs with ⟨cause, hr⟩ | ⟨ha, hr⟩
  · rw [hr] at h
    cases h
  · rw [hr] at h
    cases h
    exact get?_put ha

theorem fillFile_ok (h : (fillFile loc content).runOn fs = (.ok (), fs')) :
    ∀ other, fs'.get? other = if other = loc then some (.file content) else fs.get? other := by
  obtain ⟨_, emptied, hempty, h⟩ := runOn_bind_ok h
  intro other
  rw [putEntry_ok h, putEntry_ok hempty]
  split <;> rfl

/-- A file that has been written is found where it was written, and nothing else has changed. -/
theorem putFile_ok (h : (putFile a content).runOn fs = (.ok (), fs')) :
    ∃ p, resolve fs true a = .ok p ∧ p.entry ≠ some .directory ∧
      ∀ other, fs'.get? other =
        if other = p.location then some (.file content) else fs.get? other := by
  unfold putFile at h
  rw [runOn_bind, runOn_look] at h
  cases hr : resolve fs true a with
  | error e =>
    rw [hr] at h
    cases h
  | ok p =>
    refine ⟨p, rfl, ?_⟩
    simp only [hr] at h
    cases he : p.entry with
    | none =>
      rw [he] at h
      dsimp only at h
      split at h
      · cases h
      · exact ⟨by simp, fillFile_ok h⟩
    | some e =>
      rw [he] at h
      cases e with
      | directory => cases h
      | file _ | link _ =>
        dsimp only at h
        unfold checkFile at h
        split at h
        · cases h
        · exact ⟨by simp, fillFile_ok h⟩

/-- An address leads to the file that has been written at it. -/
theorem putFile_wrote (h : (putFile a content).runOn fs = (.ok (), fs')) :
    ∃ loc, Wrote a content loc fs fs' := by
  obtain ⟨p, hr, hd, hall⟩ := putFile_ok h
  obtain ⟨hg, hfile⟩ := resolve_plain hr hd
  have hnew : fs'.get? p.location = some (.file content) := by
    rw [hall, if_pos rfl]
  have hsame : SameBut p.location fs fs' := by
    refine ⟨fun e he => hfile e (hg ▸ he), fun e he => ⟨content, ?_⟩, fun other ho => ?_⟩
    · rw [hnew] at he
      exact (Option.some.inj he).symm
    · rw [hall, if_neg ho]
  obtain ⟨e, hr', he⟩ := hsame.resolve_ok hr
  have hplain := (resolve_plain hr' fun hdir => hd (he.mp hdir)).1
  obtain rfl : some (.file content) = e := hnew.symm.trans hplain
  exact ⟨p.location, ⟨_, hr⟩, hr', hsame⟩

theorem Wrote.holds (h : Wrote a content loc fs fs') : fs'.get? loc = some (.file content) :=
  (resolve_plain h.leads (by simp)).1

theorem Wrote.again {other : Content} {after : FileSystem} (h : Wrote a content loc fs fs')
    (hput : (putFile a other).runOn fs' = (.ok (), after)) : Wrote a other loc fs after := by
  obtain ⟨spot, hwrote⟩ := putFile_wrote hput
  obtain ⟨e, hled⟩ := hwrote.led
  obtain ⟨rfl, _⟩ : loc = spot ∧ _ := by simpa using h.leads.symm.trans hled
  refine ⟨h.led, hwrote.leads, h.same.first, hwrote.same.second, fun other ho => ?_⟩
  rw [hwrote.same.elsewhere other ho, h.same.elsewhere other ho]

/-- A file is copied in two steps: its copy is emptied, and then filled with what is read of it. -/
theorem copyFile_ok {source : Address} (h : (copyFile source a).runOn fs = (.ok (), fs')) :
    ∃ loc emptied content, Wrote a .empty loc fs emptied ∧
      ((contentAt source).runOn emptied).1 = .ok content ∧ Wrote a content loc fs fs' := by
  unfold copyFile at h
  obtain ⟨_, first, hfirst, hthen⟩ := runOn_bind_ok h
  have hkeep : Keeps (· = fs) (discard (contentAt source)) :=
    .bind (keeps_contentAt source) fun _ => .pure _
  have hsame : first = fs := by
    have hsame := hkeep fs rfl
    rwa [hfirst] at hsame
  obtain ⟨_, emptied, hempty, hthen⟩ := runOn_bind_ok hthen
  obtain ⟨content, last, hread, hthen⟩ := runOn_bind_ok hthen
  have hsame' : last = emptied := by
    have hsame := keeps_contentAt (I := (· = emptied)) source emptied rfl
    rwa [hread] at hsame
  rw [hsame] at hempty
  rw [hsame'] at hthen
  obtain ⟨loc, hwrote⟩ := putFile_wrote hempty
  exact ⟨loc, emptied, content, hwrote, congrArg Prod.fst hread, hwrote.again hthen⟩

end Screenwright.Proofs.Writes
