import Screenwright.Proofs.Widgets
import Screenwright.Proofs.Words

namespace Screenwright.Proofs.Shorthands
open Dart Expr Style Text Lexing Layout Figures Widgets Words

structure Sides where
  left : Int
  top : Int
  right : Int
  bottom : Int
deriving DecidableEq

/-- The sides that a shorthand gives by its values. -/
def shorthand : List Int → Sides
  | [all] => ⟨all, all, all, all⟩
  | [vertical, horizontal] =>
    { top := vertical, bottom := vertical, left := horizontal, right := horizontal }
  | [top, right, bottom, left] => { top, right, bottom, left }
  | _ => ⟨0, 0, 0, 0⟩

/-- An argument of a call: its name, unless it counts by its place, and its value. -/
abbrev Argument := Option String × Int

def natural? (word : String) : Option Nat :=
  if word ≠ "" ∧ word.toList.all isDigit = true then some (decimalValue word.toList) else none

/-- The value of an integer; a minus sign is a token by itself. -/
def integer? : List Token → Option Int
  | [.word digits] => (natural? digits).map fun n : Nat => (n : Int)
  | [.mark '-', .word digits] => (natural? digits).map fun n : Nat => -(n : Int)
  | _ => none

def argument? : List Token → Option Argument
  | .word name :: .mark ':' :: value => (integer? value).map fun n => (some name, n)
  | value => (integer? value).map fun n => (none, n)

/-- The value of a named argument, which is zero if it is left out. -/
def optional (args : List Argument) (name : String) : Int :=
  ((args.find? (·.1 = some name)).map Prod.snd).getD 0

/-- The sides that a constructor of insets makes of its arguments. -/
def construct : String → List Argument → Option Sides
  | "all", [(none, value)] => some ⟨value, value, value, value⟩
  | "symmetric", args =>
    if (∀ a ∈ args, a.1 = some "vertical" ∨ a.1 = some "horizontal") ∧ (args.map Prod.fst).Nodup
    then
      let vertical := optional args "vertical"
      let horizontal := optional args "horizontal"
      some ⟨horizontal, vertical, horizontal, vertical⟩
    else none
  | "fromLTRB", [(none, left), (none, top), (none, right), (none, bottom)] =>
    some ⟨left, top, right, bottom⟩
  | _, _ => none

/-- The sides of a call of such a constructor. -/
def called : List Token → Option Sides
  | .word "EdgeInsets" :: .mark '.' :: .word name :: .opening '(' :: rest =>
    if rest.getLast? = some (.closing ')') then
      ((rest.dropLast.splitOn (.mark ',')).mapM argument?).bind (construct name)
    else none
  | _ => none

/-- The sides that an expression stands for. -/
def denoted (source : String) : Option Sides := (lex source).bind called

def numeral : Int → List Token
  | .ofNat n => [.word (toString n)]
  | .negSucc n => [.mark '-', .word (toString (n + 1))]

theorem digits_toString (n : Nat) : ∀ c ∈ (toString n).toList, isDigit c = true := by
  intro c hc
  rw [Nat.toString_eq_repr, Nat.toList_repr] at hc
  exact isDigit_of_mem_toDigits hc

theorem natural?_toString (n : Nat) : natural? (toString n) = some n := by
  rw [natural?, if_pos ⟨Nat.repr_ne_empty, List.all_eq_true.mpr (digits_toString n)⟩,
    Nat.toString_eq_repr, Nat.toList_repr, decimalValue_toDigits]

theorem reads_natural (n : Nat) : Reads (toString n) [.word (toString n)] := by
  refine reads_word (Nat.repr_ne_empty) fun c hc => ?_
  simp [isWordChar, Screen.Name.isBaseChar, digits_toString n c hc]

theorem plainTokens_integer (n : Int) : plainTokens (toString n) = numeral n := by
  have hreads : Reads (toString n) (numeral n) := by
    cases n with
    | ofNat n => exact reads_natural n
    | negSucc n =>
      have hsign : Seals "-" [.mark '-'] := .of_scan rfl
      exact hsign.append_reads (reads_natural (n + 1))
  rw [plainTokens, hreads.lex_eq, Option.getD_some]

theorem integer?_numeral (n : Int) : integer? (numeral n) = some n := by
  cases n with
  | ofNat n => rw [numeral, integer?, natural?_toString, Option.map_some, Int.ofNat_eq_natCast]
  | negSucc n => rw [numeral, integer?, natural?_toString, Option.map_some, Int.negSucc_eq]; rfl

def written (a : Argument) : Option String × Expr := (a.1, ofInt a.2)

/-- A name of an argument is a single word. -/
def Named (a : Argument) : Prop := ∀ name, a.1 = some name → plainTokens name = [.word name]

def argumentTokens (a : Argument) : List Token := labelTokens a.1 ++ numeral a.2

theorem argument?_tokens {a : Argument} (h : Named a) : argument? (argumentTokens a) = some a := by
  obtain ⟨name, n⟩ := a
  cases name with
  | none =>
    have hplain : argument? (numeral n) = (integer? (numeral n)).map fun n => (none, n) := by
      cases n <;> rfl
    rw [argumentTokens, labelTokens, List.nil_append, hplain, integer?_numeral, Option.map_some]
  | some name =>
    have hname : plainTokens name = [.word name] := h name rfl
    simp only [argumentTokens, labelTokens, hname, List.cons_append, List.nil_append, argument?,
      integer?_numeral, Option.map_some]

theorem comma_not_mem {a : Argument} (h : Named a) : Token.mark ',' ∉ argumentTokens a := by
  obtain ⟨name, n⟩ := a
  have hvalue : Token.mark ',' ∉ numeral n := by
    cases n <;> simp [numeral]
  cases name with
  | none => exact hvalue
  | some name =>
    have hname : plainTokens name = [.word name] := h name rfl
    simp [argumentTokens, labelTokens, hname, hvalue]

theorem argTokens_written (args : List Argument) :
    argTokens (args.map written) = args.map argumentTokens := by
  induction args with
  | nil => rfl
  | cons a args ih =>
    obtain ⟨name, n⟩ := a
    simp only [List.map_cons, written, argTokens, ofInt, tokens, plainTokens_integer,
      argumentTokens] at ih ⊢
    rw [ih]

theorem mapM_argument? {args : List Argument} (h : ∀ a ∈ args, Named a) :
    (args.map argumentTokens).mapM argument? = some args := by
  induction args with
  | nil => rfl
  | cons a args ih =>
    obtain ⟨ha, hargs⟩ := List.forall_mem_cons.mp h
    simp [List.mapM_cons, argument?_tokens ha, ih hargs]

theorem denoted_call {e : Expr} {callee : String} (name : String) (args : List Argument)
    (he : e = .call callee (args.map written)) (hregular : Regular e)
    (hcallee : plainTokens callee = [.word "EdgeInsets", .mark '.', .word name])
    (hne : args ≠ []) (hargs : ∀ a ∈ args, Named a) (column : Nat) :
    denoted (e.render column) = construct name args := by
  have hsplit : ([Token.mark ','].intercalate (args.map argumentTokens)).splitOn (.mark ',') =
      args.map argumentTokens := by
    have htokens : ∀ ts ∈ args.map argumentTokens, Token.mark ',' ∉ ts := by
      intro ts hts
      obtain ⟨a, ha, rfl⟩ := List.mem_map.mp hts
      exact comma_not_mem (hargs a ha)
    exact List.splitOn_intercalate _ htokens (by simpa using hne)
  rw [denoted, (hregular.reads column).lex_eq, he, tokens, hcallee, argTokens_written]
  simp [called, hsplit, mapM_argument? hargs]

def sidesOf : Insets → Sides
  | .uniform all => ⟨all, all, all, all⟩
  | .symmetric vertical horizontal => ⟨horizontal, vertical, horizontal, vertical⟩
  | .each left top right bottom => ⟨left, top, right, bottom⟩

theorem sides_eq (i : Insets) :
    i.sides = [(sidesOf i).left, (sidesOf i).top, (sidesOf i).right, (sidesOf i).bottom] := by
  cases i <;> rfl

/-- What is written for insets stands for their sides. -/
theorem denoted_toDart (i : Insets) (column : Nat) :
    denoted (i.toDart.render column) = some (sidesOf i) := by
  have hregular := regular_insets i
  cases i with
  | uniform all =>
    exact denoted_call "all" [(none, all)] rfl hregular (by decide) (by simp) (by simp [Named])
      column
  | symmetric vertical horizontal =>
    have hnames : ∀ a ∈ [(some "vertical", vertical), (some "horizontal", horizontal)],
        Named a := by
      simp only [List.forall_mem_cons, Named, Option.some.injEq]
      refine ⟨?_, ?_, nofun⟩ <;> rintro _ rfl <;> decide
    exact denoted_call "symmetric" [(some "vertical", vertical), (some "horizontal", horizontal)]
      rfl hregular (by decide) (by simp) hnames column
  | each left top right bottom =>
    exact denoted_call "fromLTRB"
      [(none, left), (none, top), (none, right), (none, bottom)] rfl hregular (by decide) (by simp)
      (by simp [Named]) column

theorem sidesOf_ofText (s : String) :
    sidesOf (Insets.ofText s) = shorthand ((words s).map fun w => (leadingInt w).getD 0) := by
  unfold Insets.ofText
  generalize ((words s).map fun w => (leadingInt w).getD 0) = values
  match values with
  | [] | [_] | [_, _] | [_, _, _] | [_, _, _, _] | _ :: _ :: _ :: _ :: _ :: _ => rfl

/-- Insets in shorthand have the sides that the words of the shorthand give them, each by the
integer it starts with, and what is written for the insets stands for the same sides. -/
theorem insets_shorthand (s : String) (column : Nat) :
    ∃ ws, (∀ vs, Splits s.toList vs ↔ vs = ws) ∧
      let insets := Insets.of (some (.text s))
      let sides := shorthand (ws.map fun w => (leadingInt w).getD 0)
      denoted (insets.toDart.render column) = some sides ∧
        insets.sides = [sides.left, sides.top, sides.right, sides.bottom] := by
  refine ⟨words s, fun vs => splits_iff, ?_⟩
  rw [← sidesOf_ofText]
  exact ⟨denoted_toDart _ column, sides_eq _⟩

/-- Signs, units and words without an integer; the sides are all different. -/
example : denoted ((Insets.ofText "+1px -2em\t30% auto").toDart.render 0) =
    some ⟨0, 1, -2, 30⟩ := by decide +kernel

end Screenwright.Proofs.Shorthands
