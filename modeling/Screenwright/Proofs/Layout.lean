import Mathlib.Data.List.Forall2
import Screenwright.Proofs.Lexing

namespace Screenwright.Proofs.Layout
open Dart Lexing

/-- The words that stand for something in a source file, wherever they occur. -/
def reserved : List Token := [.word "class", .word "onPressed", .word "Navigator"]

/-- Plain text without a reserved word. -/
def Quiet (s : String) : Prop :=
  (∀ c ∈ s.toList, isPlain c = true) ∧ ∀ t ∈ plainTokens s, t ∉ reserved

def isQuiet (cs : List Char) : Bool :=
  cs.all isPlain && (lexChars cs).any fun ts => ts.all fun t => decide (t ∉ reserved)

theorem quiet {cs : List Char} (h : isQuiet cs = true) : Quiet (String.ofList cs) := by
  simp only [isQuiet, Bool.and_eq_true, List.all_eq_true] at h
  refine ⟨by simpa using h.1, ?_⟩
  obtain ⟨ts, hts, hq⟩ := (Option.any_eq_true _ _).mp h.2
  intro t ht
  simp only [plainTokens, lex, String.toList_ofList, hts, Option.getD_some] at ht
  simpa using List.all_eq_true.mp hq t ht

/-- The handler of a press: it opens a path, or does nothing. -/
def press : Option String → Expr
  | some path =>
    .action (.call "Navigator.pushNamed"
      [Expr.plain (.word "context"), Expr.plain (.quoted path)])
  | none => .idle ""

mutual

/-- An expression whose fixed texts are quiet, and whose handlers are those of presses. -/
inductive Regular : Expr → Prop
  | word {text} : Quiet text → Regular (.word text)
  | quoted {text} : Regular (.quoted text)
  | call {callee args} : Quiet callee → RegularArgs args → Regular (.call callee args)
  | block {callee args} : Quiet callee → RegularArgs args → Regular (.block callee args)
  | list {items} : RegularItems items → Regular (.list items)
  | remark {comment} : '\n' ∉ comment.toList → Regular (.remark comment)
  | idle {params} : Quiet params → Regular (.idle params)

inductive RegularArgs : List (Option String × Expr) → Prop
  | nil : RegularArgs []
  | plain {value args} : Regular value → RegularArgs args → RegularArgs ((none, value) :: args)
  | named {name value args} : Quiet name → Regular value → RegularArgs args →
      RegularArgs ((some name, value) :: args)
  | press {args} (target : Option String) : RegularArgs args →
      RegularArgs ((some "onPressed", press target) :: args)

inductive RegularItems : List Expr → Prop
  | nil : RegularItems []
  | cons {item items} : Regular item → RegularItems items → RegularItems (item :: items)

end

def labelTokens : Option String → List Token
  | some name => plainTokens name ++ [.mark ':']
  | none => []

def ended (tss : List (List Token)) : List Token := tss.flatMap (· ++ [.mark ','])

mutual

def tokens : Expr → List Token
  | .word text => plainTokens text
  | .quoted text => [.literal text]
  | .call callee args =>
    plainTokens callee ++ .opening '(' :: [.mark ','].intercalate (argTokens args) ++ [.closing ')']
  | .block callee args =>
    plainTokens callee ++ .opening '(' :: ended (argTokens args) ++ [.closing ')']
  | .list items => .opening '[' :: ended (itemTokens items) ++ [.closing ']']
  | .remark comment => [.opening '[', .comment (" " ++ comment), .closing ']']
  | .idle params =>
    .opening '(' :: plainTokens params ++ [.closing ')', .opening '\x7b', .closing '\x7d']
  | .action body => [.opening '(', .closing ')', .mark '=', .mark '>'] ++ tokens body

def argTokens : List (Option String × Expr) → List (List Token)
  | [] => []
  | (name, value) :: args => (labelTokens name ++ tokens value) :: argTokens args

def itemTokens : List Expr → List (List Token)
  | [] => []
  | item :: items => tokens item :: itemTokens items

end

theorem Quiet.reads {s : String} (h : Quiet s) : Reads s (plainTokens s) :=
  (reads_plain (p := fun _ => True) fun c hc => ⟨h.1 c hc, trivial⟩).1

theorem reads_labelled {name : Option String} {value : String} {ts : List Token}
    (hn : ∀ n, name = some n → Reads n (plainTokens n)) (hv : Reads value ts) :
    Reads (Expr.labelled name value) (labelTokens name ++ ts) := by
  cases name with
  | none => simpa [Expr.labelled, labelTokens] using hv
  | some n =>
    have hcolon : scan .gap [':', ' '] = some ([.mark ':'], .gap) := rfl
    exact ((hn n rfl).append_seals rfl hcolon).append_reads hv

theorem seals_line {text : String} {ts : List Token} (indent : Nat) (h : Reads text ts) :
    Seals (Expr.line indent text) (ts ++ [.mark ',']) :=
  ((seals_pad indent).append_reads h).append_seals rfl rfl

theorem concat_cons (text : String) (texts : List String) :
    "".intercalate (text :: texts) = text ++ "".intercalate texts := by
  cases texts with
  | nil => simp
  | cons _ _ => simp [String.intercalate_cons_cons]

/-- Lines one below the other, each of which ends in a comma. -/
theorem seals_lines {texts : List String} {tss : List (List Token)} (indent : Nat)
    (h : List.Forall₂ Reads texts tss) :
    Seals ("".intercalate (texts.map (Expr.line indent))) (ended tss) := by
  induction h with
  | nil => exact .empty
  | @cons text ts texts tss ht hts ih =>
    rw [List.map_cons, concat_cons]
    simpa [ended] using (seals_line indent ht).append ih

theorem reads_commas {texts : List String} {tss : List (List Token)}
    (h : List.Forall₂ Reads texts tss) :
    Reads (", ".intercalate texts) ([.mark ','].intercalate tss) := by
  induction h with
  | nil => exact Seals.empty.reads
  | @cons text ts texts tss ht hts ih =>
    cases hts with
    | nil => simpa using ht
    | cons hu hus =>
      have hcomma : scan .gap [',', ' '] = some ([.mark ','], .gap) := rfl
      rw [String.intercalate_cons_cons, List.intercalate_cons_cons]
      exact (ht.append_seals rfl hcomma).append_reads ih

theorem scan_comment {cs : List Char} (h : '\n' ∉ cs) (read : List Char) :
    scan (.comment read) (cs ++ ['\n']) =
      some ([.comment (String.ofList (read ++ cs))], .gap) := by
  induction cs generalizing read with
  | nil => simp [scan, step]
  | cons c cs ih =>
    have hc : c ≠ '\n' := fun he => h (he ▸ List.mem_cons_self)
    have hcs : '\n' ∉ cs := fun hm => h (List.mem_cons_of_mem _ hm)
    simp [scan, step, hc, ih hcs]

theorem seals_comment {comment : String} (h : '\n' ∉ comment.toList) :
    Seals ("// " ++ comment ++ "\n") [.comment (" " ++ comment)] := by
  have ht : ("// " ++ comment ++ "\n").toList =
      '/' :: '/' :: (' ' :: comment.toList ++ ['\n']) := by
    simp
  have hn : '\n' ∉ ' ' :: comment.toList := by simpa using h
  have hs := scan_comment hn []
  have he : String.ofList (' ' :: comment.toList) = " " ++ comment :=
    String.toList_inj.mp (by simp)
  unfold Seals
  rw [ht, scan_silent rfl, scan_silent rfl, hs, List.nil_append, he]

theorem tokens_press_none :
    tokens (press none) = [.opening '(', .closing ')', .opening '\x7b', .closing '\x7d'] := by
  have h : plainTokens "" = [] := by simp [plainTokens, Seals.empty.lex_eq]
  simp [press, tokens, h]

theorem tokens_press_some (path : String) :
    tokens (press (some path)) =
      [.opening '(', .closing ')', .mark '=', .mark '>', .word "Navigator", .mark '.',
        .word "pushNamed", .opening '(', .word "context", .mark ',', .literal path,
        .closing ')'] := by
  have hcallee : Reads "Navigator.pushNamed"
      ([.word "Navigator", .mark '.'] ++ [.word "pushNamed"]) := .of_scan rfl
  have hcontext : Reads "context" ([] ++ [.word "context"]) := .of_scan rfl
  simp [press, tokens, argTokens, labelTokens, Expr.plain, plainTokens, hcallee.lex_eq,
    hcontext.lex_eq]

theorem reads_press (target : Option String) (indent : Nat) :
    Reads ((press target).render indent) (tokens (press target)) := by
  cases target with
  | none =>
    have h : Seals "() \x7b\x7d" [.opening '(', .closing ')', .opening '\x7b', .closing '\x7d'] :=
      .of_scan rfl
    rw [tokens_press_none]
    exact h.reads
  | some path =>
    have hcall : Seals "() => Navigator.pushNamed(context, "
        [.opening '(', .closing ')', .mark '=', .mark '>', .word "Navigator", .mark '.',
          .word "pushNamed", .opening '(', .word "context", .mark ','] := .of_scan rfl
    have hclose : Seals ")" [.closing ')'] := .of_scan rfl
    rw [tokens_press_some]
    exact ((hcall.append (seals_quote path)).append hclose).reads

theorem plain_onPressed :
    Reads "onPressed" [.word "onPressed"] ∧ plainTokens "onPressed" = [.word "onPressed"] := by
  have h : Reads "onPressed" ([] ++ [.word "onPressed"]) := .of_scan rfl
  exact ⟨h, by simp [plainTokens, h.lex_eq]⟩

mutual

/-- Placed at any column, an expression reads as its tokens. -/
theorem Regular.reads {e : Expr} (h : Regular e) (indent : Nat) :
    Reads (e.render indent) (tokens e) := by
  cases h with
  | word ht => exact ht.reads
  | quoted => exact (seals_quote _).reads
  | @call callee args hf ha =>
    have hopen : scan .gap ['('] = some ([.opening '('], .gap) := rfl
    have hclose : scan .gap [')'] = some ([.closing ')'], .gap) := rfl
    have hin := (hf.reads.append_seals rfl hopen).append_reads (reads_commas (ha.reads indent))
    simpa [Expr.render, tokens] using (hin.append_seals rfl hclose).reads
  | @block callee args hf ha =>
    have hopen : scan .gap ['(', '\n'] = some ([.opening '('], .gap) := rfl
    have hclose : Seals ")" [.closing ')'] := .of_scan rfl
    have hin := (hf.reads.append_seals rfl hopen).append
      (seals_lines (indent + 2) (ha.reads (indent + 2)))
    simpa [Expr.render, tokens] using ((hin.append (seals_pad indent)).append hclose).reads
  | @list items hi =>
    cases hi with
    | nil =>
      have hempty : Seals "[]" [.opening '[', .closing ']'] := .of_scan rfl
      exact hempty.reads
    | cons hi his =>
      have hopen : Seals "[\n" [.opening '['] := .of_scan rfl
      have hclose : Seals "]" [.closing ']'] := .of_scan rfl
      have hin := hopen.append
        (seals_lines (indent + 2) ((RegularItems.cons hi his).reads (indent + 2)))
      simpa [Expr.render, tokens] using ((hin.append (seals_pad indent)).append hclose).reads
  | @remark comment hc =>
    have hopen : Seals "[\n" [.opening '['] := .of_scan rfl
    have hclose : Seals "]" [.closing ']'] := .of_scan rfl
    have hin := (hopen.append (seals_pad (indent + 2))).append (seals_comment hc)
    simpa [Expr.render, tokens, String.append_assoc] using
      ((hin.append (seals_pad indent)).append hclose).reads
  | @idle params hp =>
    have hopen : Seals "(" [.opening '('] := .of_scan rfl
    have hclose : scan .gap [')', ' ', '\x7b', '\x7d'] =
        some ([.closing ')', .opening '\x7b', .closing '\x7d'], .gap) := rfl
    simpa [Expr.render, tokens] using
      ((hopen.append_reads hp.reads).append_seals rfl hclose).reads

theorem RegularArgs.reads {args : List (Option String × Expr)} (h : RegularArgs args)
    (indent : Nat) : List.Forall₂ Reads (Expr.renderArgs indent args) (argTokens args) := by
  cases h with
  | nil => exact .nil
  | plain hv ha =>
    exact .cons (reads_labelled (by simp) (hv.reads indent)) (ha.reads indent)
  | @named name _ _ hn hv ha =>
    refine .cons (reads_labelled ?_ (hv.reads indent)) (ha.reads indent)
    intro n he
    cases he
    exact hn.reads
  | press target ha =>
    refine .cons (reads_labelled ?_ (reads_press target indent)) (ha.reads indent)
    intro n he
    cases he
    exact plain_onPressed.2 ▸ plain_onPressed.1

theorem RegularItems.reads {items : List Expr} (h : RegularItems items) (indent : Nat) :
    List.Forall₂ Reads (Expr.renderItems indent items) (itemTokens items) := by
  cases h with
  | nil => exact .nil
  | cons hi his => exact .cons (hi.reads indent) (his.reads indent)

end

end Screenwright.Proofs.Layout
