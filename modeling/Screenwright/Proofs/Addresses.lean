import Screenwright.Files.Action
import Screenwright.Proofs.Identifiers

namespace Screenwright.Proofs.Addresses
open Files Address Lexing

theorem toList_loop (bs : ByteArray) (i : Nat) (read : List UInt8) :
    ByteArray.toList.loop bs i read = read.reverse ++ bs.data.toList.drop i := by
  fun_induction ByteArray.toList.loop bs i read with
  | case1 i read h ih =>
    have hi : i < bs.data.toList.length := by simpa using h
    rw [ih, List.drop_eq_getElem_cons hi]
    simp [ByteArray.get!, getElem!_pos, h, Array.getElem_toList]
  | case2 i read h =>
    have hi : bs.data.toList.length ≤ i := by simpa using h
    simp [List.drop_eq_nil_of_le hi]

theorem bytesOf_eq (s : String) : Text.bytesOf s = s.toList.flatMap String.utf8EncodeChar := by
  have hs : s.toByteArray = (s.toList.flatMap String.utf8EncodeChar).toByteArray :=
    String.utf8Encode_toList.symm
  rw [Text.bytesOf, ByteArray.toList, toList_loop]
  simp [hs]

theorem bytesOf_append (s t : String) :
    Text.bytesOf (s ++ t) = Text.bytesOf s ++ Text.bytesOf t := by
  simp [bytesOf_eq]

/-- A plain character is one byte, which is no slash and not zero. -/
theorem byte_of_isPlain {c : Char} (h : isPlain c = true) :
    ∃ b, String.utf8EncodeChar c = [b] ∧ b ≠ slash ∧ b ≠ 0 ∧ (b = dot → c = '.') := by
  have hall : ∀ n < 128, isPlain (Char.ofNat n) = true →
      String.utf8EncodeChar (Char.ofNat n) = [UInt8.ofNat n] ∧ UInt8.ofNat n ≠ slash ∧
        UInt8.ofNat n ≠ 0 ∧ (UInt8.ofNat n = dot → Char.ofNat n = '.') := by
    decide +kernel
  have hlt : c.toNat < 128 := by
    simp only [isPlain, Bool.or_eq_true, decide_eq_true_eq] at h
    rcases h with (h | rfl) | rfl
    · exact Identifiers.toNat_lt_of_isBaseChar h
    · decide
    · decide
  have := hall c.toNat hlt
  rw [Char.ofNat_toNat] at this
  exact ⟨_, this h⟩

theorem isProper_iff {n : FileName} :
    n.isProper = true ↔ n ≠ [] ∧ n ≠ [dot] ∧ n ≠ [dot, dot] ∧ ∀ b ∈ n, b ≠ slash ∧ b ≠ 0 := by
  simp [FileName.isProper, and_assoc]

/-- Plain text is a proper name, unless a dot begins it. -/
theorem isProper_bytesOf {s : String} {c : Char} {cs : List Char} (hs : s.toList = c :: cs)
    (hc : c ≠ '.') (hplain : ∀ d ∈ s.toList, isPlain d = true) :
    FileName.isProper (Text.bytesOf s) = true := by
  obtain ⟨b, hb, _, _, hdot⟩ := byte_of_isPlain (hplain c (hs ▸ List.mem_cons_self))
  have hne : b ≠ dot := fun he => hc (hdot he)
  have hbytes : Text.bytesOf s = b :: cs.flatMap String.utf8EncodeChar := by
    rw [bytesOf_eq, hs, List.flatMap_cons, hb, List.singleton_append]
  refine isProper_iff.mpr ⟨by simp [hbytes], by simp [hbytes, hne], by simp [hbytes, hne], ?_⟩
  intro d hd
  rw [bytesOf_eq] at hd
  obtain ⟨e, he, hde⟩ := List.mem_flatMap.mp hd
  obtain ⟨f, hf, hslash, hzero, _⟩ := byte_of_isPlain (hplain e he)
  rw [hf, List.mem_singleton] at hde
  exact hde ▸ ⟨hslash, hzero⟩

theorem splitSlashes_ne_nil (bs : List UInt8) : splitSlashes bs ≠ [] := by
  cases bs with
  | nil => simp [splitSlashes]
  | cons b bs =>
    unfold splitSlashes
    split
    · simp
    · split <;> simp

theorem splitSlashes_append (as bs : List UInt8) :
    splitSlashes (as ++ slash :: bs) = splitSlashes as ++ splitSlashes bs := by
  induction as with
  | nil => simp [splitSlashes]
  | cons a as ih =>
    by_cases ha : a = slash
    · simp [splitSlashes, ha, ih]
    · rw [List.cons_append, splitSlashes, if_neg ha, ih, splitSlashes, if_neg ha]
      cases hs : splitSlashes as with
      | nil => exact absurd hs (splitSlashes_ne_nil as)
      | cons w ws => rfl

theorem splitSlashes_name {n : FileName} (h : ∀ b ∈ n, b ≠ slash) : splitSlashes n = [n] := by
  induction n with
  | nil => rfl
  | cons b bs ih =>
    obtain ⟨hb, hbs⟩ := List.forall_mem_cons.mp h
    simp [splitSlashes, hb, ih hbs]

theorem segments_append (as bs : List UInt8) :
    segments (as ++ slash :: bs) = segments as ++ segments bs := by
  simp [segments, splitSlashes_append]

theorem segments_name {n : FileName} (h : n.isProper = true) : segments n = [.name n] := by
  obtain ⟨hne, hdot, hdots, hall⟩ := isProper_iff.mp h
  simp [segments, splitSlashes_name fun b hb => (hall b hb).1, hne, Segment.ofBytes, hdot, hdots]

/-- Names behind an address, each behind a slash. -/
def below (a : Address) (names : Location) : Address :=
  { a with written := a.written ++ names.flatMap (slash :: ·) }

@[simp] theorem below_nil (a : Address) : below a [] = a := by
  simp [below]

theorem below_append (a : Address) (names more : Location) :
    below (below a names) more = below a (names ++ more) := by
  simp [below]

theorem segments_below {a : Address} {names : Location} (h : ∀ n ∈ names, n.isProper = true) :
    segments (below a names).written = segments a.written ++ names.map .name := by
  induction names generalizing a with
  | nil => simp
  | cons n names ih =>
    obtain ⟨hn, hnames⟩ := List.forall_mem_cons.mp h
    have hstep : below a (n :: names) = below (below a [n]) names := by
      rw [below_append, List.singleton_append]
    have hone : segments (below a [n]).written = segments a.written ++ [.name n] := by
      simp [below, segments_append, segments_name hn]
    rw [hstep, ih hnames, hone]
    simp

theorem origin_below {a : Address} (h : a.written ≠ []) (names : Location) :
    (below a names).origin = a.origin := by
  obtain ⟨b, bs, hb⟩ := List.exists_cons_of_ne_nil h
  simp [origin, isAbsolute, below, hb]

/-- The last step of an address is a proper name behind a slash. -/
def Settled (a : Address) : Prop :=
  ∃ before n, a.written = before ++ slash :: n ∧ FileName.isProper n = true

theorem Settled.ne_nil {a : Address} (h : Settled a) : a.written ≠ [] := by
  obtain ⟨before, n, he, _⟩ := h
  simp [he]

theorem Settled.below {a : Address} (h : Settled a) {names : Location}
    (hn : ∀ n ∈ names, n.isProper = true) : Settled (below a names) := by
  rcases List.eq_nil_or_concat names with rfl | ⟨front, n, rfl⟩
  · rwa [below_nil]
  · exact ⟨a.written ++ front.flatMap (slash :: ·), n, by simp [Addresses.below], hn n (by simp)⟩

theorem trimEnd_name {n : FileName} (h : n.isProper = true) (before : List UInt8) :
    trimEnd (before ++ n).reverse = (before ++ n).reverse := by
  obtain ⟨hne, hdot, _, hall⟩ := isProper_iff.mp h
  obtain ⟨m, b, rfl⟩ : ∃ m b, n = m ++ [b] :=
    ⟨n.dropLast, n.getLast hne, (List.dropLast_concat_getLast hne).symm⟩
  have hb : b ≠ slash := (hall b (by simp)).1
  have hr : (before ++ (m ++ [b])).reverse = b :: (m.reverse ++ before.reverse) := by simp
  rw [hr, trimEnd, if_neg hb, if_neg]
  rintro ⟨rfl, hh⟩
  cases hm : m.reverse with
  | nil => simp [List.reverse_eq_nil_iff.mp hm] at hdot
  | cons c cs =>
    have hc : c ∈ m := List.mem_reverse.mp (hm ▸ List.mem_cons_self)
    have hs : c = slash := by simpa [hm] using hh
    exact (hall c (List.mem_append_left _ hc)).1 hs

theorem Settled.trimEnd {a : Address} (h : Settled a) :
    Address.trimEnd a.written.reverse = a.written.reverse := by
  obtain ⟨before, n, he, hn⟩ := h
  rw [he, List.append_cons, trimEnd_name hn]

/-- What is in front of the last name of an address, and of the slash before it. -/
theorem dropWhile_name {n : FileName} (hn : n.isProper = true) (before : List UInt8) :
    (before ++ slash :: n).reverse.dropWhile (· ≠ slash) = slash :: before.reverse := by
  have hreverse : (before ++ slash :: n).reverse = n.reverse ++ slash :: before.reverse := by simp
  rw [hreverse, List.dropWhile_append_of_pos]
  · simp
  · intro b hb
    simpa using ((isProper_iff.mp hn).2.2.2 b (List.mem_reverse.mp hb)).1

theorem parent?_below {a : Address} (h : Settled a) {n : FileName} (hn : n.isProper = true) :
    (below a [n]).parent? = some a := by
  have hw : (below a [n]).written = a.written ++ slash :: n := by simp [below]
  have hkept : (Address.trimEnd (slash :: a.written.reverse)).reverse = a.written := by
    rw [Address.trimEnd, if_pos rfl, h.trimEnd, List.reverse_reverse]
  have htrimmed : Address.trimEnd (a.written ++ slash :: n).reverse =
      (a.written ++ slash :: n).reverse := by
    rw [List.append_cons, trimEnd_name hn]
  unfold parent?
  rw [hw, htrimmed]
  split
  · next he => simp at he
  · rw [dropWhile_name hn]
    simp only [hkept]
    simp [h.ne_nil, below]

/-- Below a settled address, the directory above a path is found by going up once. -/
theorem parent?_joined {a : Address} (h : Settled a) {names : Location}
    (hn : ∀ n ∈ names, n.isProper = true) (hne : names ≠ []) :
    (below a names).parent? = some (below a names.dropLast) := by
  obtain ⟨front, n, rfl⟩ : ∃ front n, names = front ++ [n] :=
    ⟨names.dropLast, names.getLast hne, (List.dropLast_concat_getLast hne).symm⟩
  rw [List.dropLast_concat, ← below_append]
  exact parent?_below (h.below fun m hm => hn m (by simp [hm])) (hn n (by simp))

theorem not_isAbsolute {n : FileName} (hn : n.isProper = true) (more : List UInt8) :
    isAbsolute (n ++ more) = false := by
  obtain ⟨hne, _, _, hall⟩ := isProper_iff.mp hn
  obtain ⟨b, bs, rfl⟩ := List.exists_cons_of_ne_nil hne
  simpa [isAbsolute] using (hall b List.mem_cons_self).1

theorem Settled.getLast?_ne {a : Address} (h : Settled a) : a.written.getLast? ≠ some slash := by
  obtain ⟨before, n, he, hn⟩ := h
  obtain ⟨hne, _, _, hall⟩ := isProper_iff.mp hn
  rw [he, List.getLast?_append_of_ne_nil _ (by simp), List.getLast?_cons_of_ne_nil hne]
  intro hl
  exact (hall slash (List.mem_of_getLast? hl)).1 rfl

theorem Settled.endsInSlash {a : Address} (h : Settled a) : a.endsInSlash = false := by
  simpa [Address.endsInSlash] using h.getLast?_ne

theorem Settled.length_lt {a : Address} (h : Settled a) (names : Location) :
    names.length < (Addresses.below a names).written.length := by
  have hpos : 0 < a.written.length := List.length_pos_iff.mpr h.ne_nil
  have hlen : names.length ≤ (names.flatMap (slash :: ·)).length := by
    induction names with
    | nil => simp
    | cons n names ih =>
      simp only [List.flatMap_cons, List.length_cons, List.length_append]
      omega
  simp only [Addresses.below, List.length_append]
  omega

theorem join_below {a : Address} (h : Settled a) {names : Location} {written : List UInt8}
    (hw : slash :: written = names.flatMap (slash :: ·)) (hn : ∀ n ∈ names, n.isProper = true) :
    a.join written = below a names := by
  cases names with
  | nil => simp at hw
  | cons n names =>
    obtain rfl : written = n ++ names.flatMap (slash :: ·) := by simpa using hw
    have habs := not_isAbsolute (hn n List.mem_cons_self) (names.flatMap (slash :: ·))
    unfold join
    rw [if_neg (by simp [habs, h.ne_nil]), if_neg h.getLast?_ne, hw, below]

theorem joinLocation_below {a : Address} (h : Settled a) {names : Location}
    (hn : ∀ n ∈ names, n.isProper = true) : a.joinLocation names = below a names := by
  induction names generalizing a with
  | nil => simp [joinLocation]
  | cons n names ih =>
    obtain ⟨hone, hnames⟩ := List.forall_mem_cons.mp hn
    have hsingle : ∀ m ∈ [n], FileName.isProper m = true := by simpa using hone
    have hjoin : a.join n = below a [n] := join_below h (by simp) hsingle
    have hrest := ih (a := below a [n]) (h.below hsingle) hnames
    rw [below_append, List.singleton_append] at hrest
    rw [joinLocation, List.foldl_cons, hjoin]
    exact hrest

/-- A proper name in an address that names something is its last step. -/
theorem settled_join {a : Address} (h : a.written ≠ []) {n : FileName} (hn : n.isProper = true) :
    Settled (a.join n) := by
  have habs : isAbsolute n = false := by simpa using not_isAbsolute hn []
  unfold join
  rw [if_neg (by simp [habs, h])]
  split
  · next hl =>
    obtain ⟨before, he⟩ := List.getLast?_eq_some_iff.mp hl
    exact ⟨before, n, by simp [he], hn⟩
  · exact ⟨a.written, n, rfl, hn⟩

theorem steps_join (a : Address) {n : FileName} (hn : n.isProper = true) :
    (a.join n).origin = a.origin ∧
      segments (a.join n).written = segments a.written ++ [.name n] := by
  have habs : isAbsolute n = false := by simpa using not_isAbsolute hn []
  by_cases h : a.written = []
  · have hjoin : a.join n = { a with written := n } := if_pos (.inr h)
    have hnil : isAbsolute a.written = false := by
      rw [h]
      rfl
    rw [hjoin, origin, origin, habs, hnil, segments_name hn, h]
    exact ⟨rfl, rfl⟩
  have horigin (more : List UInt8) : isAbsolute (a.written ++ more) = isAbsolute a.written := by
    obtain ⟨b, bs, hb⟩ := List.exists_cons_of_ne_nil h
    simp [isAbsolute, hb]
  unfold join
  rw [if_neg (by simp [habs, h])]
  split
  · next hl =>
    obtain ⟨before, he⟩ := List.getLast?_eq_some_iff.mp hl
    refine ⟨by rw [origin, origin, horigin], ?_⟩
    have hend : segments a.written = segments before := by
      rw [he, segments_append]
      simp [segments, splitSlashes]
    rw [hend, ← segments_name hn, ← segments_append]
    simp [he]
  · refine ⟨by rw [origin, origin, horigin], ?_⟩
    rw [← segments_name hn, ← segments_append]

theorem steps_joinLocation (a : Address) {names : Location}
    (hn : ∀ n ∈ names, n.isProper = true) :
    (a.joinLocation names).origin = a.origin ∧
      segments (a.joinLocation names).written = segments a.written ++ names.map .name := by
  induction names generalizing a with
  | nil => simp [joinLocation]
  | cons n names ih =>
    obtain ⟨hone, hnames⟩ := List.forall_mem_cons.mp hn
    obtain ⟨horigin, hsteps⟩ := steps_join a hone
    obtain ⟨horigin', hsteps'⟩ := ih (a.join n) hnames
    have hjoin : a.joinLocation (n :: names) = (a.join n).joinLocation names := rfl
    rw [hjoin, horigin', hsteps', horigin, hsteps]
    simp

theorem settled_joinLocation {a : Address} (h : a.written ≠ []) {names : Location}
    (hne : names ≠ []) (hn : ∀ n ∈ names, n.isProper = true) : Settled (a.joinLocation names) := by
  obtain ⟨n, names, rfl⟩ := List.exists_cons_of_ne_nil hne
  obtain ⟨hone, hnames⟩ := List.forall_mem_cons.mp hn
  have hsettled := settled_join h hone
  have hjoin : a.joinLocation (n :: names) = below (a.join n) names :=
    joinLocation_below hsettled hnames
  exact hjoin ▸ hsettled.below hnames

/-- Where a step leads to from a directory by its name alone. -/
def stepFrom (here : Location) : Segment → Location
  | .here => here
  | .up => here.dropLast
  | .name n => here ++ [n]

theorem foldl_stepFrom (here names : Location) :
    (names.map Segment.name).foldl stepFrom here = here ++ names := by
  induction names generalizing here with
  | nil => exact (List.append_nil _).symm
  | cons n names ih => exact (ih (here ++ [n])).trans (List.append_assoc here [n] names)

end Screenwright.Proofs.Addresses
