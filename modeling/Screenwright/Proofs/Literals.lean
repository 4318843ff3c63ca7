import Screenwright.Proofs.Lexing

namespace Screenwright.Proofs.Literals
open Dart Lexing

/-- What a reader of a literal comes to. -/
inductive Reading where
  /-- The literal is closed: the text that it stands for, and what follows it. -/
  | closed (value rest : String)
  /-- The source ends before the literal does. -/
  | unfinished
  /-- There is no literal, or one with something that it must not hold: a line break, a dollar sign
  that starts an interpolation, or an escape that stands for nothing. -/
  | broken
deriving DecidableEq

namespace Reading

def push (c : Char) : Reading → Reading
  | .closed value rest => .closed (String.ofList [c] ++ value) rest
  | r => r

def followed (more : String) : Reading → Reading
  | .closed value rest => .closed value (rest ++ more)
  | r => r

end Reading

/-- Reads on within a literal, in front of an escaped character or of any other. -/
def readInside : (escaped : Bool) → List Char → Reading
  | _, [] => .unfinished
  | true, c :: cs =>
    match unescape c with
    | some d => (readInside false cs).push d
    | none => .broken
  | false, c :: cs =>
    if c = '\'' then .closed "" (String.ofList cs)
    else if c = '\\' then readInside true cs
    else if c = '\n' ∨ c = '\r' ∨ c = '$' then .broken
    else (readInside false cs).push c

/-- Reads the literal that a source starts with. -/
def readLiteral (source : String) : Reading :=
  match source.toList with
  | [] => .unfinished
  | c :: cs => if c = '\'' then readInside false cs else .broken

theorem push_followed (c : Char) (more : String) (r : Reading) :
    (r.push c).followed more = (r.followed more).push c := by
  cases r <;> rfl

theorem push_eq_unfinished {c : Char} {r : Reading} : r.push c = .unfinished ↔ r = .unfinished := by
  cases r <;> simp [Reading.push]

theorem readInside_escape (c : Char) (rest : List Char) :
    readInside false (escape c ++ rest) = (readInside false rest).push c := by
  unfold escape
  split
  case h_7 hslash hquote hdollar hbreak hreturn _ =>
    have hplain : ¬ (c = '\n' ∨ c = '\r' ∨ c = '$') := by
      rintro (h | h | h)
      · exact hbreak h
      · exact hreturn h
      · exact hdollar h
    rw [List.singleton_append, readInside, if_neg hquote, if_neg hslash, if_neg hplain]
  all_goals rfl

theorem readInside_escaped (cs : List Char) (t : String) :
    readInside false (cs.flatMap escape ++ '\'' :: t.toList) = .closed (String.ofList cs) t := by
  induction cs with
  | nil => simp [readInside]
  | cons c cs ih =>
    rw [List.flatMap_cons, List.append_assoc, readInside_escape, ih, Reading.push,
      ← String.ofList_append, List.singleton_append]

theorem readLiteral_quote (s t : String) : readLiteral (quote s ++ t) = .closed s t := by
  have hq : (quote s ++ t).toList = '\'' :: (s.toList.flatMap escape ++ '\'' :: t.toList) := by
    simp [quote]
  rw [readLiteral, hq]
  simp [readInside_escaped]

/-- A reading that has come to an end stays as it is, whatever follows. -/
theorem readInside_append (escaped : Bool) (cs : List Char) (more : String)
    (h : readInside escaped cs ≠ .unfinished) :
    readInside escaped (cs ++ more.toList) = (readInside escaped cs).followed more := by
  induction cs generalizing escaped with
  | nil => exact absurd rfl h
  | cons c cs ih =>
    cases escaped with
    | true =>
      rw [List.cons_append, readInside, readInside]
      rw [readInside] at h
      cases hd : unescape c with
      | none => rfl
      | some d =>
        simp only [hd, ne_eq, push_eq_unfinished] at h
        simp only [ih false h, push_followed]
    | false =>
      rw [List.cons_append, readInside, readInside]
      rw [readInside] at h
      by_cases hquote : c = '\''
      · simp [hquote, Reading.followed]
      · by_cases hslash : c = '\\'
        · simp only [if_neg hquote, if_pos hslash] at h ⊢
          exact ih true h
        · by_cases hbad : c = '\n' ∨ c = '\r' ∨ c = '$'
          · simp only [if_neg hquote, if_neg hslash, if_pos hbad, Reading.followed]
          · simp only [if_neg hquote, if_neg hslash, if_neg hbad, ne_eq, push_eq_unfinished] at h ⊢
            rw [ih false h, push_followed]

theorem readLiteral_append {s : String} (more : String) (h : readLiteral s ≠ .unfinished) :
    readLiteral (s ++ more) = (readLiteral s).followed more := by
  unfold readLiteral at *
  rw [String.toList_append]
  cases hs : s.toList with
  | nil => exact absurd (by rw [hs]) h
  | cons c cs =>
    simp only [hs, List.cons_append] at h ⊢
    split at h
    · next hc =>
      rw [if_pos hc, if_pos hc]
      exact readInside_append false cs more h
    · next hc => rw [if_neg hc, if_neg hc]; rfl

/-- A quoted text reads as that text, and the reader stops exactly behind it; no other text has the
same literal, even with something behind it, and within the literal the reader comes to no end. -/
theorem quote_read (s t : String) :
    readLiteral (quote s ++ t) = .closed s t ∧
      (∀ s' t', quote s' ++ t' = quote s ++ t → s' = s ∧ t' = t) ∧
      ∀ p q, p ++ q = quote s → q ≠ "" → readLiteral p = .unfinished := by
  refine ⟨readLiteral_quote s t, fun s' t' h => ?_, fun p q hs hq => ?_⟩
  · have hsame := readLiteral_quote s' t'
    rw [h, readLiteral_quote s t] at hsame
    cases hsame
    exact ⟨rfl, rfl⟩
  · refine Decidable.byContradiction fun hp => ?_
    have hwhole := readLiteral_append q hp
    rw [hs, ← String.append_empty (s := quote s), readLiteral_quote s ""] at hwhole
    cases hr : readLiteral p with
    | unfinished => exact hp hr
    | broken => simp [hr, Reading.followed] at hwhole
    | closed value rest =>
      simp only [hr, Reading.followed, Reading.closed.injEq] at hwhole
      exact hq (String.append_eq_empty_iff.mp hwhole.2.symm).2

/-- A backslash in front of a quote and of a dollar sign, with source behind the literal that looks
like more of it. -/
example : readLiteral (quote "\\'\\$x" ++ "' + y'") = .closed "\\'\\$x" "' + y'" := by decide

end Screenwright.Proofs.Literals
