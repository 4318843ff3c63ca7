import Screenwright.Json.Numeral
import Screenwright.Json.Text

namespace Screenwright.Json

inductive Mark where
  | listOpen | listClose | objectOpen | objectClose | comma | colon
deriving DecidableEq

def Mark.ofChar? : Char → Option Mark
  | '[' => some .listOpen
  | ']' => some .listClose
  | '\x7b' => some .objectOpen
  | '\x7d' => some .objectClose
  | ',' => some .comma
  | ':' => some .colon
  | _ => none

/-- A value without parts. A number or a string may be well formed and still not be
readable: too large, or with half a surrogate pair. -/
inductive Scalar where
  | null
  | bool (b : Bool)
  | number (read : Except Fault Number)
  | string (read : Except Fault String)

/-- What a token is. A broken scalar has one fault for those who read it and one for
those who skip it. -/
inductive Lexeme where
  | mark (m : Mark)
  | scalar (s : Scalar)
  | stray
  | broken (strict loose : Fault)

/-- A token with the text that it starts and the text behind it, so that a fault can name its
place. -/
structure Token where
  lexeme : Lexeme
  start : List Char
  stop : List Char

def isBlank (c : Char) : Bool := c = ' ' || c = '\n' || c = '\t' || c = '\r'

def skipBlank (cs : List Char) : List Char := cs.dropWhile isBlank

/-- The rest of a literal word; a text that ends early has no value. -/
def scanWord (scalar : Scalar) : List Char → List Char → Lexeme × List Char
  | [], rest => (.scalar scalar, rest)
  | _ :: _, [] => (.broken (.atEnd .endOfValue) (.atEnd .endOfValue), [])
  | w :: ws, c :: rest =>
    if c = w then scanWord scalar ws rest
    else (.broken (.past .expectedWord (c :: rest)) (.past .expectedWord (c :: rest)), [])

def scanString (rest : List Char) : Lexeme × List Char :=
  match (scanText rest).2, readText rest with
  | .closed after, read => (.scalar (.string read), after)
  | .fault _ loose, .error strict => (.broken strict loose, [])
  | .fault strict loose, .ok _ => (.broken strict loose, [])

def scanNumber (cs : List Char) : Lexeme × List Char :=
  match Numeral.scan cs with
  | .ok (numeral, after) => (.scalar (.number (numeral.value after)), after)
  | .error (strict, loose) => (.broken strict loose, [])

def scanToken (c : Char) (rest : List Char) : Lexeme × List Char :=
  match Mark.ofChar? c with
  | some m => (.mark m, rest)
  | none =>
    if c = '"' then scanString rest
    else if c = '-' ∨ Text.isDigit c then scanNumber (c :: rest)
    else if c = 't' then scanWord (.bool true) ['r', 'u', 'e'] rest
    else if c = 'f' then scanWord (.bool false) ['a', 'l', 's', 'e'] rest
    else if c = 'n' then scanWord .null ['u', 'l', 'l'] rest
    else (.stray, [])

theorem length_scanText {cs rest : List Char} (h : (scanText cs).2 = .closed rest) :
    rest.length < cs.length := by
  fun_induction scanText cs <;> simp_all [TextEnd.both] <;> omega

theorem length_scanWord (scalar : Scalar) (ws rest : List Char) :
    (scanWord scalar ws rest).2.length ≤ rest.length := by
  induction ws generalizing rest with
  | nil => simp [scanWord]
  | cons w ws ih =>
    cases rest with
    | nil => simp [scanWord]
    | cons c rest =>
      unfold scanWord
      split
      · exact Nat.le_succ_of_le (ih rest)
      · simp

theorem length_scanString (rest : List Char) : (scanString rest).2.length ≤ rest.length := by
  unfold scanString
  split
  · rename_i after read h
    exact Nat.le_of_lt (length_scanText h)
  · simp
  · simp

theorem length_scanExponent {numeral n : Numeral} {cs rest : List Char}
    (h : Numeral.scanExponent numeral cs = .ok (n, rest)) : rest.length ≤ cs.length := by
  unfold Numeral.scanExponent at h
  split at h
  · rename_i c tail
    split at h
    · dsimp only at h
      split at h
      · simp at h
      · rename_i d ds hd
        split at h
        · simp only [Except.ok.injEq, Prod.mk.injEq] at h
          rw [← h.2]
          refine Nat.le_trans (List.dropWhile_suffix _).length_le ?_
          split
          · simp only [List.length_drop, List.length_cons]
            omega
          · exact Nat.le_succ _
        · simp at h
    · simp only [Except.ok.injEq, Prod.mk.injEq] at h
      exact Nat.le_of_eq (congrArg List.length h.2.symm)
  · simp only [Except.ok.injEq, Prod.mk.injEq] at h
    exact Nat.le_of_eq (congrArg List.length h.2.symm)

theorem length_scanFraction {numeral n : Numeral} {cs rest : List Char}
    (h : Numeral.scanFraction numeral cs = .ok (n, rest)) : rest.length ≤ cs.length := by
  unfold Numeral.scanFraction at h
  split at h
  · split at h
    · simp at h
    · split at h
      · have h₁ := length_scanExponent h
        refine Nat.le_succ_of_le (Nat.le_trans h₁ (List.dropWhile_suffix _).length_le)
      · simp at h
  · exact length_scanExponent h

theorem length_scanWhole {negative : Bool} {n : Numeral} {cs rest : List Char}
    (h : Numeral.scanWhole negative cs = .ok (n, rest)) : rest.length < cs.length := by
  unfold Numeral.scanWhole at h
  split at h
  · simp at h
  · rename_i d tail
    split at h
    · split at h
      · simp at h
      · have := length_scanFraction h
        simp only [List.length_cons]
        omega
    · split at h
      · rename_i hd
        have h₁ := length_scanFraction h
        have h₂ := (List.dropWhile_suffix (l := tail) Text.isDigit).length_le
        rw [List.dropWhile_cons_of_pos hd] at h₁
        simp only [List.length_cons]
        omega
      · simp at h

theorem length_scanNumber (c : Char) (rest : List Char) :
    (scanNumber (c :: rest)).2.length ≤ rest.length := by
  unfold scanNumber
  split
  · rename_i numeral after h
    unfold Numeral.scan at h
    split at h
    · rename_i tail he
      have := length_scanWhole h
      simp only [List.cons.injEq] at he
      rw [he.2]
      exact Nat.le_of_lt this
    · exact Nat.le_of_lt_succ (length_scanWhole h)
  · simp

theorem length_scanToken (c : Char) (rest : List Char) :
    (scanToken c rest).2.length ≤ rest.length := by
  unfold scanToken
  split
  · simp
  · split
    · exact length_scanString rest
    · split
      · exact length_scanNumber c rest
      · split
        · exact length_scanWord _ _ _
        · split
          · exact length_scanWord _ _ _
          · split
            · exact length_scanWord _ _ _
            · simp

/-- All tokens of a text, up to the first character that none starts with. -/
def tokens (cs : List Char) : List Token :=
  match _h : skipBlank cs with
  | [] => []
  | c :: rest =>
    ⟨(scanToken c rest).1, c :: rest, (scanToken c rest).2⟩ :: tokens (scanToken c rest).2
termination_by cs.length
decreasing_by
  have h₁ := (List.dropWhile_suffix (l := cs) isBlank).length_le
  have h₂ := length_scanToken c rest
  rw [show cs.dropWhile isBlank = c :: rest from _h] at h₁
  simp only [List.length_cons] at h₁
  omega

end Screenwright.Json
