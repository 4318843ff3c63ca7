import Screenwright.Proofs.Numerals
import Screenwright.Proofs.Outcomes

namespace Screenwright.Proofs.Scanning
open Json Numerals Outcomes

variable {cs rest after : List Char}

theorem scanText_unit {a b c d : Char} {n : Nat} (h : hexUnit? a b c d = some n)
    (cs : List Char) : scanText ('\\' :: 'u' :: a :: b :: c :: d :: cs) =
      (.unit n cs :: (scanText cs).1, (scanText cs).2) := by
  rw [scanText, h]

theorem scanText_escape {e c : Char} (h : unescape? e = some c) (cs : List Char) :
    scanText ('\\' :: e :: cs) = (.char c :: (scanText cs).1, (scanText cs).2) := by
  have hu : e ≠ 'u' := by
    rintro rfl
    cases h
  rw [scanText.eq_5 _ _ fun _ _ _ _ _ he => absurd he hu, h]

theorem scanText_char {c : Char} (hquote : c ≠ '"') (hescape : c ≠ '\\') (hcontrol : ¬ c.toNat < 32)
    (cs : List Char) : scanText (c :: cs) = (.char c :: (scanText cs).1, (scanText cs).2) := by
  rw [scanText.eq_6 _ _ hquote (fun he => absurd he hescape) (fun _ _ _ _ _ he => absurd he hescape)
    (fun _ _ he => absurd he hescape), if_neg hcontrol]

/-- A piece of a literal with more text behind it. -/
def behind (rest : List Char) : Piece → Piece
  | .char c => .char c
  | .unit n after => .unit n (after ++ rest)

/-- A string literal is closed by the same quote whatever text follows. -/
theorem scanText_append (h : (scanText cs).2 = .closed after) (rest : List Char) :
    scanText (cs ++ rest) = ((scanText cs).1.map (behind rest), .closed (after ++ rest)) := by
  induction cs using scanText.induct with
  | case2 tail =>
    cases h
    rfl
  | case4 a b c d tail n hn pieces stop hscan ih =>
    rw [scanText_unit hn] at h ⊢
    rw [List.cons_append, List.cons_append, List.cons_append, List.cons_append, List.cons_append,
      List.cons_append, scanText_unit hn, ih h]
    rfl
  | case6 e tail _ c hc pieces stop hscan ih =>
    rw [scanText_escape hc] at h ⊢
    rw [List.cons_append, List.cons_append, scanText_escape hc, ih h]
    rfl
  | case9 c tail hquote hend _ hescape hcontrol pieces stop hscan ih =>
    have hslash : c ≠ '\\' := by
      intro he
      cases tail with
      | nil => exact hend he rfl
      | cons e tail => exact hescape e tail he rfl
    rw [scanText_char hquote hslash hcontrol] at h ⊢
    rw [List.cons_append, scanText_char hquote hslash hcontrol, ih h]
    rfl
  -- What is left are the texts without a closing quote.
  | case1 => cases h
  | case3 => cases h
  | case5 a b c d tail hn =>
    rw [scanText, hn] at h
    cases h
  | case7 e tail hu he =>
    rw [scanText.eq_5 _ _ hu, he] at h
    cases h
  | case8 c tail hquote hend hunit hescape hcontrol =>
    rw [scanText.eq_6 _ _ hquote hend hunit hescape, if_pos hcontrol] at h
    cases h

theorem decodeUnits_alone {stop : TextEnd} {n : Nat} (hn : ¬ isTrailing n = true)
    (hlead : ¬ isLeading n = true) (place : List Char) (pieces : List Piece) :
    decodeUnits stop (.unit n place :: pieces) =
      (Char.ofNat n :: ·) <$> decodeUnits stop pieces := by
  conv => lhs; unfold decodeUnits
  rw [if_neg hn, if_neg hlead]

/-- What a literal stands for, if anything, does not depend on the text behind it. -/
theorem toOption_decodeUnits_behind (after rest : List Char) (pieces : List Piece) :
    (decodeUnits (.closed (after ++ rest)) (pieces.map (behind rest))).toOption =
      (decodeUnits (.closed after) pieces).toOption := by
  induction pieces using decodeUnits.induct (.closed after) with
  | case1 => rfl
  | case2 _ _ hstop => cases hstop
  | case3 c pieces ih =>
    rw [List.map_cons, behind, decodeUnits, decodeUnits, toOption_map, toOption_map, ih]
  | case4 n place pieces hn =>
    rw [List.map_cons, behind]
    unfold decodeUnits
    rw [if_pos hn, if_pos hn]
    rfl
  | case5 n place hn hlead m place' pieces hm ih =>
    rw [List.map_cons, List.map_cons, behind, behind, decodeUnits, decodeUnits, if_neg hn,
      if_neg hn, if_pos hlead, if_pos hlead]
    rw [if_pos hm, if_pos hm, toOption_map, toOption_map, ih]
  | case6 n place hn hlead m place' pieces hm =>
    rw [List.map_cons, List.map_cons, behind, behind, decodeUnits, decodeUnits, if_neg hn,
      if_neg hn, if_pos hlead, if_pos hlead]
    rw [if_neg hm, if_neg hm]
    rfl
  | case7 n place pieces hn hlead hpair =>
    have hrefused {stop : TextEnd} {place : List Char} {pieces : List Piece}
        (hpair : ∀ m place' pieces', pieces = .unit m place' :: pieces' → False) :
        (decodeUnits stop (.unit n place :: pieces)).toOption = none := by
      rw [decodeUnits, if_neg hn, if_pos hlead]
      · rfl
      · exact hpair
    rw [List.map_cons, behind, hrefused hpair, hrefused]
    intro m place' pieces' hpieces
    cases pieces with
    | nil => cases hpieces
    | cons p pieces =>
      cases p with
      | char c => cases hpieces
      | unit m place' => exact hpair _ _ _ rfl
  | case8 n place pieces hn hlead ih =>
    rw [List.map_cons, behind, decodeUnits_alone hn hlead, decodeUnits_alone hn hlead, toOption_map,
      toOption_map, ih]

theorem toOption_readText_append (hstop : (scanText cs).2 = .closed after) (rest : List Char) :
    (readText (cs ++ rest)).toOption = (readText cs).toOption := by
  have hread : readText cs = String.ofList <$> decodeUnits (.closed after) (scanText cs).1 :=
    hstop ▸ rfl
  rw [hread, readText, scanText_append hstop, toOption_map, toOption_map,
    toOption_decodeUnits_behind]

theorem readText_append {s : String} (hstop : (scanText cs).2 = .closed after)
    (h : readText cs = .ok s) (rest : List Char) : readText (cs ++ rest) = .ok s := by
  rw [← toOption_eq_some_iff, toOption_readText_append hstop, h]
  rfl

theorem scanToken_digit {d : Char} (hd : Text.isDigit d = true) (tail : List Char) :
    isBlank d = false ∧ scanToken d tail = scanNumber (d :: tail) := by
  have hnot (c : Char) (hc : Text.isDigit c = false) : d ≠ c := Text.ne_of_test hd hc
  have hmark : Mark.ofChar? d = none := by
    unfold Mark.ofChar?
    split
    all_goals first | rfl | exact absurd rfl (hnot _ rfl)
  refine ⟨by simp [isBlank, hnot ' ' rfl, hnot '\n' rfl, hnot '\t' rfl, hnot '\r' rfl], ?_⟩
  rw [scanToken, hmark]
  dsimp only
  rw [if_neg (hnot '"' rfl), if_pos (.inr hd)]

/-- What follows from a token about the same token in front of more text. A number or a string
that can be read is read in the same way. -/
inductive Kept : Scalar → Scalar → Prop where
  | null : Kept .null .null
  | bool (b : Bool) : Kept (.bool b) (.bool b)
  | number {read read' : Except Fault Number}
      (h : ∀ n, read = .ok n → Fits n ∧ read' = .ok n) : Kept (.number read) (.number read')
  | string {read read' : Except Fault String}
      (h : ∀ s, read = .ok s → read' = .ok s) : Kept (.string read) (.string read')

inductive KeptLexeme : Lexeme → Lexeme → Prop where
  | mark (m : Mark) : KeptLexeme (.mark m) (.mark m)
  | scalar {s s' : Scalar} (h : Kept s s') : KeptLexeme (.scalar s) (.scalar s')

/-- Nothing that a value could go on with. -/
inductive Dead : Lexeme → Prop where
  | stray : Dead .stray
  | broken (strict loose : Fault) : Dead (.broken strict loose)

/-- How a token fares when more text is put behind it. -/
def Lasts (rest : List Char) (token token' : Lexeme × List Char) : Prop :=
  Dead token.1 ∨ KeptLexeme token.1 token'.1 ∧ token'.2 = token.2 ++ rest

theorem lasts_word {s : Scalar} (hs : Kept s s) (ws cs rest : List Char) :
    Lasts rest (scanWord s ws cs) (scanWord s ws (cs ++ rest)) := by
  induction ws generalizing cs with
  | nil => exact .inr ⟨.scalar hs, rfl⟩
  | cons w ws ih =>
    cases cs with
    | nil => exact .inl (.broken _ _)
    | cons c cs =>
      rw [List.cons_append, scanWord, scanWord]
      split
      · exact ih cs
      · exact .inl (.broken _ _)

theorem lasts_string (cs rest : List Char) :
    Lasts rest (scanString cs) (scanString (cs ++ rest)) := by
  cases hstop : (scanText cs).2 with
  | closed after =>
    have hstop' : (scanText (cs ++ rest)).2 = .closed (after ++ rest) := by
      rw [scanText_append hstop]
    rw [scanString, scanString, hstop, hstop']
    exact .inr ⟨.scalar (.string fun s hs => readText_append hstop hs rest), rfl⟩
  | fault strict loose =>
    refine .inl ?_
    rw [scanString, hstop]
    cases readText cs <;> exact .broken _ _

theorem lasts_number (hrest : Clear rest) (cs : List Char) :
    Lasts rest (scanNumber cs) (scanNumber (cs ++ rest)) := by
  cases hscan : Numeral.scan cs with
  | ok cut =>
    rw [scanNumber, scanNumber, cuts_number hrest hscan, hscan]
    refine .inr ⟨.scalar (.number fun n hn => ?_), rfl⟩
    obtain ⟨hfits, hall⟩ := settled_value _ hn
    exact ⟨hfits, hall _⟩
  | error faults =>
    refine .inl ?_
    rw [scanNumber, hscan]
    exact .broken _ _

theorem lasts_token (hrest : Clear rest) (c : Char) (cs : List Char) :
    Lasts rest (scanToken c cs) (scanToken c (cs ++ rest)) := by
  unfold scanToken
  split
  · exact .inr ⟨.mark _, rfl⟩
  · split_ifs
    · exact lasts_string cs rest
    · exact lasts_number hrest (c :: cs)
    · exact lasts_word (.bool true) _ cs rest
    · exact lasts_word (.bool false) _ cs rest
    · exact lasts_word .null _ cs rest
    · exact .inl .stray

end Screenwright.Proofs.Scanning
