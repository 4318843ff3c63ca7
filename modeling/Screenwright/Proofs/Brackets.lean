import Screenwright.Proofs.Layout

namespace Screenwright.Proofs.Brackets
open Dart Lexing Layout

def partner : Char → Char
  | '(' => ')'
  | '[' => ']'
  | _ => '\x7d'

/-- The brackets that still have to be closed behind some tokens, the innermost first; none if
a bracket closes that is not the partner of the last one. -/
def nest : List Char → List Token → Option (List Char)
  | awaited, [] => some awaited
  | awaited, .opening c :: ts => nest (partner c :: awaited) ts
  | c :: awaited, .closing d :: ts => if c = d then nest awaited ts else none
  | [], .closing _ :: _ => none
  | awaited, _ :: ts => nest awaited ts

/-- A source whose literals are closed on their lines and whose brackets are nested. -/
def LexicallyClosed (source : String) : Prop :=
  ∃ ts, lex source = some ts ∧ nest [] ts = some []

/-- Tokens that close all brackets that they open. -/
def Level (ts : List Token) : Prop := ∀ awaited, nest awaited ts = some awaited

theorem nest_append (awaited : List Char) (ts us : List Token) :
    nest awaited (ts ++ us) = (nest awaited ts).bind fun rest => nest rest us := by
  fun_induction nest awaited ts with
  | case1 awaited => simp
  | case2 awaited c ts ih => simpa [nest] using ih
  | case3 awaited c ts ih => simpa [nest] using ih
  | case4 c awaited d ts hne => simp [nest, hne]
  | case5 => simp [nest]
  | case6 awaited t ts ho hc hc' ih =>
    cases t with
    | opening c => exact absurd rfl (ho c)
    | closing c =>
      cases awaited with
      | nil => exact absurd rfl (hc' c rfl)
      | cons d awaited => exact absurd rfl (hc d awaited c rfl)
    | _ => simpa [nest] using ih

theorem Level.nil : Level [] := fun _ => rfl

theorem Level.append {ts us : List Token} (ht : Level ts) (hu : Level us) : Level (ts ++ us) := by
  intro awaited
  rw [nest_append, ht awaited, Option.bind_some, hu awaited]

theorem Level.enclosed {ts : List Token} (h : Level ts) (c : Char) :
    Level (.opening c :: ts ++ [.closing (partner c)]) := by
  intro awaited
  rw [List.cons_append, nest, nest_append, h, Option.bind_some]
  simp [nest]

theorem Level.of_spelt {p : Char → Prop} {ts : List Token} (h : ∀ t ∈ ts, t.Spelt p) :
    Level ts := by
  intro awaited
  induction ts with
  | nil => rfl
  | cons t ts ih =>
    have hrest := ih fun u hu => h u (List.mem_cons_of_mem _ hu)
    cases t with
    | word _ => simpa [nest] using hrest
    | mark _ => simpa [nest] using hrest
    | _ => exact (h _ List.mem_cons_self).elim

theorem level_quiet {s : String} (h : Quiet s) : Level (plainTokens s) :=
  .of_spelt (reads_plain (p := fun _ => True) fun c hc => ⟨h.1 c hc, trivial⟩).2

theorem level_mark (c : Char) : Level [.mark c] := fun _ => rfl

theorem level_ended {tss : List (List Token)} (h : ∀ ts ∈ tss, Level ts) : Level (ended tss) := by
  induction tss with
  | nil => exact .nil
  | cons ts tss ih =>
    have ht := h ts List.mem_cons_self
    have hts := ih fun us hu => h us (List.mem_cons_of_mem _ hu)
    exact (ht.append (level_mark ',')).append hts

theorem level_commas {tss : List (List Token)} (h : ∀ ts ∈ tss, Level ts) :
    Level ([.mark ','].intercalate tss) := by
  induction tss with
  | nil => exact .nil
  | cons ts tss ih =>
    have ht := h ts List.mem_cons_self
    have hts := ih fun us hu => h us (List.mem_cons_of_mem _ hu)
    cases tss with
    | nil => simpa using ht
    | cons us uss =>
      rw [List.intercalate_cons_cons]
      exact (ht.append (level_mark ',')).append hts

theorem level_press (target : Option String) : Level (tokens (press target)) := by
  intro awaited
  cases target with
  | none => simp [tokens_press_none, nest, partner]
  | some path => simp [tokens_press_some, nest, partner]

theorem level_label {name : Option String} {ts : List Token} (hv : Level ts)
    (hn : ∀ n, name = some n → Level (plainTokens n)) : Level (labelTokens name ++ ts) := by
  cases name with
  | none => exact hv
  | some n => exact ((hn n rfl).append (level_mark ':')).append hv

mutual

/-- Whatever an expression opens, it closes. -/
theorem level_tokens {e : Expr} (h : Regular e) : Level (tokens e) := by
  cases h with
  | word ht => exact level_quiet ht
  | quoted => exact fun _ => rfl
  | call hf ha =>
    have hin := (level_quiet hf).append ((level_commas (level_args ha)).enclosed '(')
    simpa [tokens, partner] using hin
  | block hf ha =>
    have hin := (level_quiet hf).append ((level_ended (level_args ha)).enclosed '(')
    simpa [tokens, partner] using hin
  | list hi => simpa [tokens, partner] using (level_ended (level_items hi)).enclosed '['
  | remark => exact fun _ => by simp [tokens, nest, partner]
  | idle hp =>
    have hin := ((level_quiet hp).enclosed '(').append (Level.nil.enclosed '\x7b')
    simpa [tokens, partner] using hin

theorem level_args {args : List (Option String × Expr)} (h : RegularArgs args) :
    ∀ ts ∈ argTokens args, Level ts := by
  cases h with
  | nil => simp [argTokens]
  | plain hv ha =>
    refine List.forall_mem_cons.mpr ⟨level_label (level_tokens hv) (by simp), level_args ha⟩
  | named hn hv ha =>
    refine List.forall_mem_cons.mpr ⟨level_label (level_tokens hv) ?_, level_args ha⟩
    intro n he
    cases he
    exact level_quiet hn
  | press target ha =>
    refine List.forall_mem_cons.mpr ⟨level_label (level_press target) ?_, level_args ha⟩
    intro n he
    cases he
    rw [plain_onPressed.2]
    exact fun _ => rfl

theorem level_items {items : List Expr} (h : RegularItems items) :
    ∀ ts ∈ itemTokens items, Level ts := by
  cases h with
  | nil => simp [itemTokens]
  | cons hi his => exact List.forall_mem_cons.mpr ⟨level_tokens hi, level_items his⟩

end

end Screenwright.Proofs.Brackets
