import Screenwright.Dart.Expr
import Screenwright.Screen.Name

namespace Screenwright.Proofs.Lexing
open Dart

inductive Token where
  /-- A run of letters, digits and underscores. -/
  | word (text : String)
  | literal (value : String)
  | comment (text : String)
  | opening (bracket : Char)
  | closing (bracket : Char)
  | mark (c : Char)
deriving DecidableEq

/-- What a scan is in the middle of, with what it has read of it. -/
inductive Mode where
  | gap
  | word (read : List Char)
  | slash
  | comment (read : List Char)
  | literal (read : List Char)
  | escape (read : List Char)

/-- What words consist of; a screen's base is such a word. -/
def isWordChar (c : Char) : Bool := Screen.Name.isBaseChar c

def isBlank (c : Char) : Bool := c = ' ' || c = '\n' || c = '\t' || c = '\r'

def unescape : Char → Option Char
  | '\\' => some '\\'
  | '\'' => some '\''
  | '$' => some '$'
  | 'n' => some '\n'
  | 'r' => some '\r'
  | 't' => some '\t'
  | _ => none

def start (c : Char) : List Token × Mode :=
  if isBlank c then ([], .gap)
  else if c = '\'' then ([], .literal [])
  else if c = '/' then ([], .slash)
  else if isWordChar c then ([], .word [c])
  else if c = '(' ∨ c = '[' ∨ c = '\x7b' then ([.opening c], .gap)
  else if c = ')' ∨ c = ']' ∨ c = '\x7d' then ([.closing c], .gap)
  else ([.mark c], .gap)

def after (t : Token) (p : List Token × Mode) : List Token × Mode := (t :: p.1, p.2)

def step : Mode → Char → Option (List Token × Mode)
  | .gap, c => some (start c)
  | .word read, c =>
    if isWordChar c then some ([], .word (read ++ [c]))
    else some (after (.word (String.ofList read)) (start c))
  | .slash, c => if c = '/' then some ([], .comment []) else some (after (.mark '/') (start c))
  | .comment read, c =>
    if c = '\n' then some ([.comment (String.ofList read)], .gap)
    else some ([], .comment (read ++ [c]))
  | .literal read, c =>
    if c = '\\' then some ([], .escape read)
    else if c = '\'' then some ([.literal (String.ofList read)], .gap)
    else if c = '\n' ∨ c = '\r' ∨ c = '$' then none
    else some ([], .literal (read ++ [c]))
  | .escape read, c => (unescape c).map fun d => ([], .literal (read ++ [d]))

/-- The tokens that end within some characters, and the mode behind them. -/
def scan : Mode → List Char → Option (List Token × Mode)
  | m, [] => some ([], m)
  | m, c :: cs => do
    let (out, next) ← step m c
    let (more, last) ← scan next cs
    return (out ++ more, last)

/-- The token that the end of the source ends, if it may stand there. -/
def finish : Mode → Option (List Token)
  | .gap => some []
  | .word read => some [.word (String.ofList read)]
  | .slash => some [.mark '/']
  | .comment read => some [.comment (String.ofList read)]
  | .literal _ | .escape _ => none

def lexChars (cs : List Char) : Option (List Token) := do
  let (tokens, last) ← scan .gap cs
  let more ← finish last
  return tokens ++ more

/-- The tokens of a source, unless a literal in it is broken. Two slashes open a comment up to the
end of the line, a quote opens a literal, and whatever else is not blank is a word, a bracket or a
mark. A literal must be closed before the line ends, a dollar sign in it must be escaped, and a
backslash stands in front of a character that it escapes. -/
def lex (source : String) : Option (List Token) := lexChars source.toList

theorem scan_append (m : Mode) (as bs : List Char) :
    scan m (as ++ bs) =
      (scan m as).bind fun p => (scan p.2 bs).map fun q => (p.1 ++ q.1, q.2) := by
  induction as generalizing m with
  | nil => simp [scan]
  | cons c cs ih =>
    simp only [List.cons_append, scan]
    cases step m c with
    | none => rfl
    | some out =>
      simp only [Option.bind_eq_bind, Option.bind_some, ih]
      cases scan out.2 cs with
      | none => rfl
      | some more => cases h : scan more.2 bs <;> simp [h]

/-- A step that puts nothing out only changes the mode. -/
theorem scan_silent {m next : Mode} {c : Char} (h : step m c = some ([], next)) (cs : List Char) :
    scan m (c :: cs) = scan next cs := by
  simp only [scan, h, Option.bind_eq_bind, Option.bind_some]
  cases scan next cs <;> rfl

/-- A text that is made of whole tokens, whatever follows it. -/
def Seals (s : String) (ts : List Token) : Prop := scan .gap s.toList = some (ts, .gap)

/-- A text that is made of whole tokens unless a longer word begins at its end. -/
def Reads (s : String) (ts : List Token) : Prop :=
  Seals s ts ∨ ∃ out read, scan .gap s.toList = some (out, .word read) ∧
    ts = out ++ [.word (String.ofList read)]

theorem Seals.of_scan {cs : List Char} {ts : List Token} (h : scan .gap cs = some (ts, .gap)) :
    Seals (String.ofList cs) ts := by
  rwa [Seals, String.toList_ofList]

theorem Reads.of_scan {cs read : List Char} {out : List Token}
    (h : scan .gap cs = some (out, .word read)) :
    Reads (String.ofList cs) (out ++ [.word (String.ofList read)]) :=
  .inr ⟨out, read, by rwa [String.toList_ofList], rfl⟩

theorem Seals.empty : Seals "" [] := .of_scan rfl

theorem Seals.append {a b : String} {ts us : List Token} (ha : Seals a ts) (hb : Seals b us) :
    Seals (a ++ b) (ts ++ us) := by
  unfold Seals at *
  simp [scan_append, ha, hb]

theorem Seals.append_reads {a b : String} {ts us : List Token} (ha : Seals a ts)
    (hb : Reads b us) : Reads (a ++ b) (ts ++ us) := by
  rcases hb with hb | ⟨out, read, hb, rfl⟩
  · exact .inl (ha.append hb)
  · unfold Seals at ha
    exact .inr ⟨ts ++ out, read, by simp [scan_append, ha, hb], by simp⟩

theorem Seals.reads {s : String} {ts : List Token} (h : Seals s ts) : Reads s ts := .inl h

theorem scan_word_of_break {c : Char} (h : isWordChar c = false) (read cs : List Char) :
    scan (.word read) (c :: cs) =
      (scan .gap (c :: cs)).map (after (.word (String.ofList read))) := by
  simp only [scan, step, h, Bool.false_eq_true, if_false, after, Option.bind_eq_bind,
    Option.bind_some]
  cases scan (start c).2 cs <;> rfl

theorem Reads.append_seals {a : String} {c : Char} {cs : List Char} {ts us : List Token}
    (ha : Reads a ts) (hc : isWordChar c = false) (hb : scan .gap (c :: cs) = some (us, .gap)) :
    Seals (a ++ String.ofList (c :: cs)) (ts ++ us) := by
  rcases ha with ha | ⟨out, read, ha, rfl⟩
  · exact ha.append (.of_scan hb)
  · unfold Seals
    rw [String.toList_append, String.toList_ofList, scan_append, ha, Option.bind_some,
      scan_word_of_break hc, hb]
    simp [after]

theorem Reads.lex_eq {s : String} {ts : List Token} (h : Reads s ts) : lex s = some ts := by
  rcases h with h | ⟨out, read, h, rfl⟩
  · unfold Seals at h
    simp [lex, lexChars, h, finish]
  · simp [lex, lexChars, h, finish]

theorem Seals.lex_eq {s : String} {ts : List Token} (h : Seals s ts) : lex s = some ts :=
  h.reads.lex_eq

/-- One character of a text is read back from what it is escaped to. -/
theorem scan_escape (read rest : List Char) (c : Char) :
    scan (.literal read) (escape c ++ rest) = scan (.literal (read ++ [c])) rest := by
  have back {d e : Char} (h : unescape d = some e) :
      scan (.literal read) ('\\' :: d :: rest) = scan (.literal (read ++ [e])) rest := by
    have hb : step (.literal read) '\\' = some ([], .escape read) := rfl
    have hd : step (.escape read) d = some ([], .literal (read ++ [e])) := by simp [step, h]
    rw [scan_silent hb, scan_silent hd]
  unfold escape
  split
  case h_7 h1 h2 h3 h4 h5 _ =>
    have h : ¬ (c = '\n' ∨ c = '\r' ∨ c = '$') := by
      rintro (h | h | h)
      · exact h4 h
      · exact h5 h
      · exact h3 h
    have hs : step (.literal read) c = some ([], .literal (read ++ [c])) := by
      simp only [step, if_neg h, if_neg h1, if_neg h2]
    exact scan_silent hs rest
  all_goals exact back rfl

theorem scan_literal (cs read : List Char) :
    scan (.literal read) (cs.flatMap escape ++ ['\'']) =
      some ([.literal (String.ofList (read ++ cs))], .gap) := by
  induction cs generalizing read with
  | nil => simp [scan, step]
  | cons c cs ih => simp [List.flatMap_cons, List.append_assoc, scan_escape, ih]

/-- A quoted text is one literal, which stands for that text. -/
theorem seals_quote (s : String) : Seals (quote s) [.literal s] := by
  have hq : (quote s).toList = '\'' :: (s.toList.flatMap escape ++ ['\'']) := by
    simp [quote]
  unfold Seals
  rw [hq, scan]
  simp [step, start, isBlank, scan_literal]

theorem seals_pad (n : Nat) : Seals (Expr.pad n) [] := by
  unfold Seals Expr.pad
  rw [String.toList_ofList]
  induction n with
  | zero => rfl
  | succ n ih => simp [List.replicate_succ, scan, step, start, isBlank, ih]

/-- Characters of numbers and of names with dots. -/
def isPlain (c : Char) : Bool := isWordChar c || c = '.' || c = '-'

def plainTokens (s : String) : List Token := (lex s).getD []

/-- A word or a mark, spelt with characters of some kind. -/
def Token.Spelt (p : Char → Prop) : Token → Prop
  | .word text => ∀ c ∈ text.toList, p c
  | .mark c => p c
  | _ => False

/-- Between tokens, or in a word spelt with characters of some kind. -/
def Mode.Loose (p : Char → Prop) : Mode → Prop
  | .gap => True
  | .word read => ∀ c ∈ read, p c
  | _ => False

theorem start_of_isPlain {c : Char} (h : isPlain c = true) :
    start c = if isWordChar c then ([], .word [c]) else ([.mark c], .gap) := by
  have hblank : isBlank c = false := by
    rw [Bool.eq_false_iff]
    intro hb
    simp only [isBlank, Bool.or_eq_true, decide_eq_true_eq] at hb
    rcases hb with ((rfl | rfl) | rfl) | rfl <;> exact absurd h (by decide)
  have hquote : c ≠ '\'' := by rintro rfl; exact absurd h (by decide)
  have hslash : c ≠ '/' := by rintro rfl; exact absurd h (by decide)
  have hopen : ¬ (c = '(' ∨ c = '[' ∨ c = '\x7b') := by
    rintro (rfl | rfl | rfl) <;> exact absurd h (by decide)
  have hclose : ¬ (c = ')' ∨ c = ']' ∨ c = '\x7d') := by
    rintro (rfl | rfl | rfl) <;> exact absurd h (by decide)
  unfold start
  rw [if_neg (by simp [hblank]), if_neg hquote, if_neg hslash, if_neg hopen, if_neg hclose]

theorem start_plain {p : Char → Prop} {c : Char} (hc : isPlain c = true) (hp : p c) :
    (start c).2.Loose p ∧ ∀ t ∈ (start c).1, t.Spelt p := by
  rw [start_of_isPlain hc]
  split
  · simpa [Mode.Loose] using hp
  · simpa [Mode.Loose, Token.Spelt] using hp

theorem step_plain {p : Char → Prop} {m : Mode} {c : Char} (hm : m.Loose p)
    (hc : isPlain c = true) (hp : p c) :
    ∃ out next, step m c = some (out, next) ∧ next.Loose p ∧ ∀ t ∈ out, t.Spelt p := by
  obtain ⟨hnext, hout⟩ := start_plain hc hp
  cases m with
  | gap => exact ⟨_, _, rfl, hnext, hout⟩
  | word read =>
    by_cases hw : isWordChar c = true
    · refine ⟨[], .word (read ++ [c]), by simp [step, hw], ?_, by simp⟩
      intro d hd
      rcases List.mem_append.mp hd with hd | hd
      · exact hm d hd
      · exact List.mem_singleton.mp hd ▸ hp
    · refine ⟨.word (String.ofList read) :: (start c).1, (start c).2, by simp [step, hw, after],
        hnext, ?_⟩
      intro t ht
      rcases List.mem_cons.mp ht with rfl | ht
      · simpa [Token.Spelt, Mode.Loose] using hm
      · exact hout t ht
  | _ => exact hm.elim

theorem scan_plain {p : Char → Prop} {m : Mode} {cs : List Char} (hm : m.Loose p)
    (hc : ∀ c ∈ cs, isPlain c = true ∧ p c) :
    ∃ out last, scan m cs = some (out, last) ∧ last.Loose p ∧ ∀ t ∈ out, t.Spelt p := by
  induction cs generalizing m with
  | nil => exact ⟨[], m, rfl, hm, by simp⟩
  | cons c cs ih =>
    obtain ⟨hcp, hp⟩ := hc c List.mem_cons_self
    obtain ⟨out, next, hs, hn, ho⟩ := step_plain hm hcp hp
    obtain ⟨more, last, hs', hl, hm'⟩ := ih hn fun d hd => hc d (List.mem_cons_of_mem _ hd)
    refine ⟨out ++ more, last, by simp [scan, hs, hs'], hl, ?_⟩
    intro t ht
    rcases List.mem_append.mp ht with ht | ht
    · exact ho t ht
    · exact hm' t ht

/-- Plain text reads as words and marks, which are spelt with its characters. -/
theorem reads_plain {p : Char → Prop} {s : String}
    (h : ∀ c ∈ s.toList, isPlain c = true ∧ p c) :
    Reads s (plainTokens s) ∧ ∀ t ∈ plainTokens s, t.Spelt p := by
  obtain ⟨out, last, hs, hl, ho⟩ := scan_plain (m := .gap) trivial h
  cases last with
  | gap =>
    have hr : Reads s out := .inl hs
    simp only [plainTokens, hr.lex_eq, Option.getD_some]
    exact ⟨hr, ho⟩
  | word read =>
    have hr : Reads s (out ++ [.word (String.ofList read)]) := .inr ⟨out, read, hs, rfl⟩
    simp only [plainTokens, hr.lex_eq, Option.getD_some]
    refine ⟨hr, fun t ht => ?_⟩
    rcases List.mem_append.mp ht with ht | ht
    · exact ho t ht
    · rw [List.mem_singleton.mp ht]
      simpa [Token.Spelt, Mode.Loose] using hl
  | _ => exact hl.elim

theorem start_word {c : Char} (h : isWordChar c = true) : start c = ([], .word [c]) := by
  rw [start_of_isPlain (by simp [isPlain, h]), if_pos h]

theorem scan_word {cs : List Char} (h : ∀ c ∈ cs, isWordChar c = true) (read : List Char) :
    scan (.word read) cs = some ([], .word (read ++ cs)) := by
  induction cs generalizing read with
  | nil => simp [scan]
  | cons c cs ih =>
    obtain ⟨hc, hcs⟩ := List.forall_mem_cons.mp h
    have hs : step (.word read) c = some ([], .word (read ++ [c])) := by simp [step, hc]
    simp [scan_silent hs, ih hcs]

theorem reads_word {s : String} (hne : s ≠ "") (h : ∀ c ∈ s.toList, isWordChar c = true) :
    Reads s [.word s] := by
  refine .inr ⟨[], s.toList, ?_, by simp⟩
  cases hs : s.toList with
  | nil => exact absurd (String.toList_inj.mp hs) hne
  | cons c cs =>
    obtain ⟨hc, hcs⟩ := List.forall_mem_cons.mp (hs ▸ h)
    have hstart : step .gap c = some ([], .word [c]) := congrArg some (start_word hc)
    rw [scan_silent hstart, scan_word hcs]
    rfl

theorem scan_literal_plain {cs : List Char} (h : ∀ c ∈ cs, isPlain c = true) (read : List Char) :
    scan (.literal read) cs = some ([], .literal (read ++ cs)) := by
  induction cs generalizing read with
  | nil => simp [scan]
  | cons c cs ih =>
    obtain ⟨hc, hcs⟩ := List.forall_mem_cons.mp h
    have hs : step (.literal read) c = some ([], .literal (read ++ [c])) := by
      have hslash : c ≠ '\\' := by rintro rfl; exact absurd hc (by decide)
      have hquote : c ≠ '\'' := by rintro rfl; exact absurd hc (by decide)
      have hend : ¬ (c = '\n' ∨ c = '\r' ∨ c = '$') := by
        rintro (rfl | rfl | rfl) <;> exact absurd hc (by decide)
      simp only [step, if_neg hslash, if_neg hquote, if_neg hend]
    rw [scan_silent hs, ih hcs]
    simp

/-- Plain text may stand in a literal as it is. -/
theorem seals_inserted {as bs read : List Char} {ts us : List Token} {s : String}
    (hs : ∀ c ∈ s.toList, isPlain c = true)
    (ha : scan .gap as = some (ts, .literal read)) (hb : scan .gap bs = some (us, .gap)) :
    Seals (String.ofList as ++ s ++ String.ofList ('\'' :: bs))
      (ts ++ .literal (String.ofList read ++ s) :: us) := by
  have hclose : step (.literal (read ++ s.toList)) '\'' =
      some ([.literal (String.ofList (read ++ s.toList))], .gap) := rfl
  have he : String.ofList (read ++ s.toList) = String.ofList read ++ s := by simp
  simp [Seals, scan_append, scan, ha, hb, hclose, he, scan_literal_plain hs]

end Screenwright.Proofs.Lexing
