import Mathlib.Data.List.TakeWhile
import Screenwright.Json.Printer
import Screenwright.Proofs.Containers
import Screenwright.Proofs.Figures
import Screenwright.Proofs.Identifiers

namespace Screenwright.Proofs.Printing
open Json Value Outline Decode Canonical Numerals Scanning Values Outlines Texts Containers
open Figures Outcomes

theorem parse_scalar {source : String} {c : Char} {tail : List Char} {s : Scalar} {v : Value}
    (hsource : source.toList = c :: tail) (hblank : isBlank c = false)
    (hscan : scanToken c tail = (.scalar s, [])) (hs : Decode.scalar s = .ok v) :
    Value.parse source = .ok v := by
  have hskip : skipBlank source.toList = c :: tail := by
    rw [hsource]
    exact List.dropWhile_cons_of_neg (by simp [hblank])
  have hread : Outline.read source.toList = .scalar s (c :: tail) [] := by
    rw [Outline.read, tokens_cons hskip, hscan, build_cons]
    rfl
  refine whole_ok_iff.mpr ?_
  rw [hread]
  exact ⟨hs, rfl⟩

theorem parse_null : Value.parse "null" = .ok .null := parse_scalar rfl rfl rfl rfl

theorem parse_bool (b : Bool) : Value.parse (if b then "true" else "false") = .ok (.bool b) := by
  cases b with
  | false => exact parse_scalar rfl rfl rfl rfl
  | true => exact parse_scalar rfl rfl rfl rfl

theorem hexValue?_digitChar : ∀ n < 16, Text.hexValue? (Nat.digitChar n) = some n := by decide

theorem hexUnit?_control {n : Nat} (h : n < 32) :
    hexUnit? '0' '0' (Nat.digitChar (n / 16)) (Nat.digitChar (n % 16)) = some n := by
  have hzero : Text.hexValue? '0' = some 0 := rfl
  have hhigh := hexValue?_digitChar (n / 16) (by omega)
  have hlow := hexValue?_digitChar (n % 16) (by omega)
  simp only [hexUnit?, hzero, hhigh, hlow, Option.bind_eq_bind, Option.bind_some]
  exact congrArg some (by omega)

theorem escape_cases (c : Char) :
    (∃ e, unescape? e = some c ∧ escape c = ['\\', e]) ∨
    (c.toNat < 32 ∧ escape c =
      ['\\', 'u', '0', '0', Nat.digitChar (c.toNat / 16), Nat.digitChar (c.toNat % 16)]) ∨
    (c ≠ '"' ∧ c ≠ '\\' ∧ ¬ c.toNat < 32 ∧ escape c = [c]) := by
  by_cases hshort : c ∈ ['"', '\\', '\x08', '\x0c', '\n', '\r', '\t']
  · have hall : ∀ c ∈ ['"', '\\', '\x08', '\x0c', '\n', '\r', '\t'],
        ∃ e, unescape? e = some c ∧ escape c = ['\\', e] := by
      simp only [List.forall_mem_cons]
      exact ⟨⟨_, rfl, rfl⟩, ⟨_, rfl, rfl⟩, ⟨'b', rfl, rfl⟩, ⟨'f', rfl, rfl⟩, ⟨'n', rfl, rfl⟩,
        ⟨'r', rfl, rfl⟩, ⟨'t', rfl, rfl⟩, fun _ h => nomatch h⟩
    exact .inl (hall c hshort)
  · simp only [List.mem_cons, List.not_mem_nil, or_false, not_or] at hshort
    obtain ⟨h1, h2, h3, h4, h5, h6, h7⟩ := hshort
    unfold escape
    rw [if_neg h1, if_neg h2, if_neg h3, if_neg h4, if_neg h5, if_neg h6, if_neg h7]
    by_cases hcontrol : c.toNat < 32
    · exact .inr (.inl ⟨hcontrol, if_pos hcontrol⟩)
    · exact .inr (.inr ⟨h1, h2, hcontrol, if_neg hcontrol⟩)

/-- An escaped character is one piece, which stands for it. -/
theorem scanText_escaped (c : Char) (cs : List Char) : ∃ p,
    scanText (escape c ++ cs) = (p :: (scanText cs).1, (scanText cs).2) ∧
      ∀ stop ps, decodeUnits stop (p :: ps) = (c :: ·) <$> decodeUnits stop ps := by
  rcases escape_cases c with ⟨e, he, htext⟩ | ⟨hcontrol, htext⟩ | ⟨hquote, hslash, hcontrol, htext⟩
  · rw [htext]
    exact ⟨.char c, scanText_escape he cs, fun _ _ => rfl⟩
  · have halone : ¬ isTrailing c.toNat = true ∧ ¬ isLeading c.toNat = true := by
      simp only [isTrailing, isLeading, Bool.and_eq_true, decide_eq_true_eq]
      omega
    rw [htext]
    refine ⟨.unit c.toNat cs, scanText_unit (hexUnit?_control hcontrol) cs, fun stop ps => ?_⟩
    rw [decodeUnits_alone halone.1 halone.2, Char.ofNat_toNat]
  · rw [htext]
    exact ⟨.char c, scanText_char hquote hslash hcontrol cs, fun _ _ => rfl⟩

/-- An escaped text is read up to its quote, as itself. -/
theorem scanText_quoted (cs rest : List Char) :
    (scanText (cs.flatMap escape ++ '"' :: rest)).2 = .closed rest ∧
      ∀ after, decodeUnits (.closed after) (scanText (cs.flatMap escape ++ '"' :: rest)).1 =
        .ok cs := by
  induction cs with
  | nil => exact ⟨rfl, fun _ => rfl⟩
  | cons c cs ih =>
    obtain ⟨p, hscan, hp⟩ := scanText_escaped c (cs.flatMap escape ++ '"' :: rest)
    rw [List.flatMap_cons, List.append_assoc, hscan]
    exact ⟨ih.1, fun after => by rw [hp, ih.2]; rfl⟩

theorem parse_quote (s : String) : Value.parse (quote s) = .ok (.string s) := by
  have hsource : (quote s).toList = '"' :: (s.toList.flatMap escape ++ ['"']) := by
    simp [quote]
  obtain ⟨hstop, hread⟩ := scanText_quoted s.toList []
  have htext : readText (s.toList.flatMap escape ++ ['"']) = .ok s := by
    change String.ofList <$> decodeUnits _ _ = _
    rw [hstop, hread]
    exact congrArg Except.ok String.ofList_toList
  have hscan : scanString (s.toList.flatMap escape ++ ['"']) =
      (.scalar (.string (.ok s)), []) := by
    rw [scanString, hstop, htext]
  exact parse_scalar hsource rfl hscan rfl

theorem digitChar_ne_zero : ∀ n < 10, 0 < n → Nat.digitChar n ≠ '0' := by decide

theorem leading_digit (n : Nat) (h : 0 < n) : ∃ d ds, Nat.toDigits 10 n = d :: ds ∧ d ≠ '0' := by
  induction n using Nat.strongRecOn with
  | ind n ih =>
    by_cases hn : n < 10
    · rw [Nat.toDigits_of_lt_base hn]
      exact ⟨_, [], rfl, digitChar_ne_zero n hn h⟩
    · obtain ⟨d, ds, hd, hne⟩ := ih (n / 10) (by omega) (by omega)
      exact ⟨d, _, by rw [Nat.toDigits_of_base_le (by decide) (by omega), hd, List.cons_append],
        hne⟩

theorem scanWhole_digits (negative : Bool) (n : Nat) :
    Numeral.scanWhole negative (Nat.toDigits 10 n) =
      .ok (⟨negative, Nat.toDigits 10 n, none, none⟩, []) := by
  cases n with
  | zero => rfl
  | succ n =>
    obtain ⟨d, ds, hds, hne⟩ := leading_digit (n + 1) (Nat.succ_pos n)
    have hall : ∀ c ∈ d :: ds, Text.isDigit c = true := fun c hc =>
      isDigit_of_mem_toDigits (hds ▸ hc)
    rw [hds, Numeral.scanWhole, if_neg hne, if_pos (hall d List.mem_cons_self)]
    rw [List.takeWhile_eq_self_iff.mpr hall, List.dropWhile_eq_nil_iff.mpr hall]
    rfl

theorem scanNumber_of {cs : List Char} {numeral : Numeral} {n : Number}
    (hscan : Numeral.scan cs = .ok (numeral, [])) (hvalue : numeral.value [] = .ok n) :
    scanNumber cs = (.scalar (.number (.ok n)), []) := by
  rw [scanNumber, hscan]
  exact congrArg (fun read => (Lexeme.scalar (.number read), [])) hvalue

theorem absorb_toDigits {n : Nat} (h : n < UInt64.size) :
    Numeral.absorb 0 (Nat.toDigits 10 n) = (n, []) := by
  have hvalue : Text.decimalValue (Nat.toDigits 10 n) = n := decimalValue_toDigits n
  rw [Text.decimalValue] at hvalue
  rw [absorb_eq (by rwa [hvalue]), hvalue]

theorem parse_natural {n : Nat} (h : n < UInt64.size) :
    Value.parse (toString n) = .ok (.number (.int n)) := by
  obtain ⟨d, ds, hds⟩ := List.exists_cons_of_ne_nil (Nat.toDigits_ne_nil : Nat.toDigits 10 n ≠ [])
  have hd : Text.isDigit d = true :=
    isDigit_of_mem_toDigits (hds ▸ List.mem_cons_self)
  have hsource : (toString n).toList = d :: ds := by
    rw [Nat.toString_eq_repr, Nat.toList_repr, hds]
  have hvalue : Numeral.value ⟨false, Nat.toDigits 10 n, none, none⟩ [] = .ok (.int n) := by
    simp [value_whole false (absorb_toDigits h)]
  have hscan := scanNumber_of ((scan_unsigned hd ds).trans (hds ▸ scanWhole_digits false n)) hvalue
  obtain ⟨hblank, htoken⟩ := scanToken_digit hd ds
  exact parse_scalar hsource hblank (htoken.trans hscan) rfl

theorem parse_negative {n : Nat} (hpos : 0 < n) (hle : n ≤ 0x8000000000000000) :
    Value.parse ("-" ++ toString n) = .ok (.number (.int (-(n : Int)))) := by
  have hsource : ("-" ++ toString n).toList = '-' :: Nat.toDigits 10 n := by
    rw [String.toList_append, Nat.toString_eq_repr, Nat.toList_repr]
    rfl
  have hvalue : Numeral.value ⟨true, Nat.toDigits 10 n, none, none⟩ [] =
      .ok (.int (-(n : Int))) := by
    have hexact : ¬ (n = 0 ∨ 0x8000000000000000 < n) := by omega
    have hsize : n < UInt64.size := by simp only [UInt64.size]; omega
    simp only [value_whole true (absorb_toDigits hsize), if_neg hexact, if_true]
  have hscan : Numeral.scan ('-' :: Nat.toDigits 10 n) =
      .ok (⟨true, Nat.toDigits 10 n, none, none⟩, []) := scanWhole_digits true n
  have htoken : scanToken '-' (Nat.toDigits 10 n) = scanNumber ('-' :: Nat.toDigits 10 n) := rfl
  exact parse_scalar hsource rfl (htoken.trans (scanNumber_of hscan hvalue)) rfl

theorem parse_int {n : Int} (h : Fits (.int n)) :
    Value.parse (toString n) = .ok (.number (.int n)) := by
  obtain ⟨hlow, hhigh⟩ := h
  cases n with
  | ofNat n => exact parse_natural (by simp only [UInt64.size, Int.ofNat_eq_natCast] at *; omega)
  | negSucc n => exact parse_negative (Nat.succ_pos n) (by omega)

theorem toList_compactItems (vs : List Value) :
    (compactItems vs).toList = joined (vs.map fun v => v.compact.toList) := by
  cases vs with
  | nil => rfl
  | cons v vs =>
    induction vs generalizing v with
    | nil => simp [compactItems, joined, commas]
    | cons w vs ih =>
      rw [compactItems, String.toList_append, String.toList_append, ih]
      · simp [joined, commas]
      · intro h
        cases h

def memberTexts (e : String × Value) : List Char × List Char :=
  ((quote e.1).toList, e.2.compact.toList)

theorem toList_compactMembers (es : Members) :
    (compactMembers es).toList = joined ((es.map memberTexts).map memberText) := by
  cases es with
  | nil => rfl
  | cons e es =>
    induction es generalizing e with
    | nil => simp [compactMembers, joined, commas, memberTexts, memberText]
    | cons f es ih =>
      rw [compactMembers, String.toList_append, String.toList_append, ih]
      · simp [joined, commas, memberTexts, memberText]
      · intro h
        cases h

/-- Numbers that are printed so that they read back as they are. -/
def ReadBack (n : Number) : Prop := Value.parse n.text = .ok (.number n)

theorem readBack_int {n : Int} (h : Fits (.int n)) : ReadBack (.int n) := parse_int h

/-- A number that fits reads back, if it does so as a double. -/
theorem readBack_of_fits {n : Number} (h : Fits n)
    (hdouble : ∀ x, n = .float x → x.isFinite = true →
      Value.parse x.scientific = .ok (.number (.float x))) : ReadBack n := by
  cases n with
  | int n => exact readBack_int h
  | float x =>
    have htext : Number.text (.float x) = x.scientific := if_pos h
    rw [ReadBack, htext]
    exact hdouble x rfl h

/-- A printed value stands for that value, if its numbers do. -/
theorem stands_compact {v : Value} (h : ∀ n ∈ numbers v, ReadBack n) :
    Stands v.compact.toList v := by
  induction v using value_induction with
  | null =>
    rw [Value.compact]
    exact stands_of_parse parse_null
  | bool b =>
    rw [Value.compact]
    exact stands_of_parse (parse_bool b)
  | number n =>
    rw [Value.compact]
    exact stands_of_parse (h n List.mem_cons_self)
  | string s =>
    rw [Value.compact]
    exact stands_of_parse (parse_quote s)
  | array vs ih =>
    have hitems : List.Forall₂ Stands (vs.map fun v => v.compact.toList) vs := by
      rw [List.forall₂_map_left_iff, List.forall₂_same]
      exact fun v hv => ih v hv fun n hn => h n (mem_itemNumbers.mpr ⟨v, hv, hn⟩)
    have htext : (Value.array vs).compact.toList =
        '[' :: (joined (vs.map fun v => v.compact.toList) ++ [']']) := by
      simp [Value.compact, toList_compactItems]
    exact htext ▸ stands_list hitems
  | object es ih =>
    have hmembers : List.Forall₂ Spells (es.map memberTexts) es := by
      rw [List.forall₂_map_left_iff, List.forall₂_same]
      intro e he
      have hname : Names (quote e.1).toList e.1 := names_of_parse (parse_quote e.1)
      have hvalue : Stands e.2.compact.toList e.2 :=
        ih e he fun n hn => h n (mem_memberNumbers.mpr ⟨e, he, hn⟩)
      exact ⟨hname, hvalue⟩
    have htext : (Value.object es).compact.toList =
        '\x7b' :: (joined ((es.map memberTexts).map memberText) ++ ['\x7d']) := by
      simp [Value.compact, toList_compactMembers]
    exact htext ▸ stands_object hmembers

/-- A printed value reads back as that value, if it is not nested too deeply. -/
theorem parse_compact {v : Value} (h : ∀ n ∈ numbers v, ReadBack n)
    (hnesting : nesting v < depthLimit) : Value.parse v.compact = .ok v :=
  parse_of_stands (stands_compact h) hnesting

theorem skipBlank_nil : skipBlank [] = [] := rfl

theorem skipBlank_lineBreak (depth : Nat) : skipBlank (lineBreak depth).toList = [] := by
  refine List.dropWhile_eq_nil_iff.mpr ?_
  intro c hc
  simp only [lineBreak, String.toList_append, String.toList_ofList, List.mem_append,
    List.mem_replicate] at hc
  rcases hc with hc | ⟨-, rfl⟩
  · rw [List.mem_singleton.mp hc]
    rfl
  · rfl

def prettyText (depth : Nat) (v : Value) : List Char :=
  (lineBreak depth).toList ++ (v.prettyAt depth).toList

def prettyTexts (depth : Nat) (e : String × Value) : List Char × List Char :=
  ((lineBreak depth).toList ++ (quote e.1).toList, ' ' :: (e.2.prettyAt depth).toList)

theorem toList_prettyItems (depth : Nat) (vs : List Value) :
    (prettyItems depth vs).toList = joined (vs.map (prettyText depth)) := by
  cases vs with
  | nil => rfl
  | cons v vs =>
    induction vs generalizing v with
    | nil => simp [prettyItems, joined, commas, prettyText]
    | cons w vs ih =>
      rw [prettyItems, String.toList_append, String.toList_append, ih]
      · simp [joined, commas, prettyText]
      · intro h
        cases h

theorem toList_prettyMembers (depth : Nat) (es : Members) :
    (prettyMembers depth es).toList = joined ((es.map (prettyTexts depth)).map memberText) := by
  cases es with
  | nil => rfl
  | cons e es =>
    induction es generalizing e with
    | nil => simp [prettyMembers, joined, commas, prettyTexts, memberText]
    | cons f es ih =>
      rw [prettyMembers, String.toList_append, String.toList_append, ih]
      · simp [joined, commas, prettyTexts, memberText]
      · intro h
        cases h

/-- Line breaks and blanks change nothing: a value printed over several lines stands for it too. -/
theorem stands_pretty {v : Value} (h : ∀ n ∈ numbers v, ReadBack n) (depth : Nat) :
    Stands (v.prettyAt depth).toList v := by
  induction v using value_induction generalizing depth with
  | null => exact stands_compact h
  | bool b => exact stands_compact h
  | number n => exact stands_compact h
  | string s => exact stands_compact h
  | array vs ih =>
    cases vs with
    | nil =>
      have htext : (prettyAt depth (.array [])).toList = '[' :: (joined [] ++ [']']) := by
        simp [prettyAt, joined]
      exact htext ▸ stands_list .nil
    | cons v vs =>
      have hitems : List.Forall₂ Stands ((v :: vs).map (prettyText (depth + 1))) (v :: vs) := by
        rw [List.forall₂_map_left_iff, List.forall₂_same]
        intro w hw
        have hvalue := ih w hw (fun n hn => h n (mem_itemNumbers.mpr ⟨w, hw, hn⟩)) (depth + 1)
        simpa [prettyText] using hvalue.blanks (skipBlank_lineBreak _) skipBlank_nil
      have htext : (prettyAt depth (.array (v :: vs))).toList =
          '[' :: (joined ((v :: vs).map (prettyText (depth + 1))) ++
            ((lineBreak depth).toList ++ [']'])) := by
        rw [prettyAt]
        simp [toList_prettyItems]
        intro h
        cases h
      exact htext ▸ stands_list_blanks hitems (skipBlank_lineBreak depth)
  | object es ih =>
    cases es with
    | nil =>
      have htext : (prettyAt depth (.object [])).toList =
          '\x7b' :: (joined ([].map memberText) ++ ['\x7d']) := by
        simp [prettyAt, joined]
      exact htext ▸ stands_object .nil
    | cons e es =>
      have hmembers : List.Forall₂ Spells ((e :: es).map (prettyTexts (depth + 1))) (e :: es) := by
        rw [List.forall₂_map_left_iff, List.forall₂_same]
        intro f hf
        have hname : Names (quote f.1).toList f.1 := names_of_parse (parse_quote f.1)
        have hvalue := ih f hf (fun n hn => h n (mem_memberNumbers.mpr ⟨f, hf, hn⟩)) (depth + 1)
        have hspace : skipBlank [' '] = [] := rfl
        have hspaced := hvalue.blanks hspace skipBlank_nil
        have hnamed := hname.blanks (skipBlank_lineBreak (depth + 1)) skipBlank_nil
        rw [List.append_nil] at hspaced hnamed
        exact ⟨hnamed, hspaced⟩
      have htext : (prettyAt depth (.object (e :: es))).toList =
          '\x7b' :: (joined (((e :: es).map (prettyTexts (depth + 1))).map memberText) ++
            ((lineBreak depth).toList ++ ['\x7d'])) := by
        rw [prettyAt]
        simp [toList_prettyMembers]
        intro h
        cases h
      exact htext ▸ stands_object_blanks hmembers (skipBlank_lineBreak depth)

theorem parse_pretty {v : Value} (h : ∀ n ∈ numbers v, ReadBack n)
    (hnesting : nesting v < depthLimit) : Value.parse v.pretty = .ok v :=
  parse_of_stands (stands_pretty h 0) hnesting

end Screenwright.Proofs.Printing
