import Screenwright.Flutter.Source
import Screenwright.Proofs.Nesting
import Screenwright.Proofs.Outcomes
import Screenwright.Proofs.Spelling

namespace Screenwright.Proofs.Rendering
open Design Flutter Screen Template Widget Widgets Spelling Nesting Outcomes

def text? (fields : List (String × String)) (name : String) : Option String :=
  (fields.reverse.find? (·.1 = name)).map Prod.snd

def argumentIn (fields : List (String × String)) : Option Argument → String
  | some (.named name) => (text? fields name).getD ""
  | some (.literal text) => text
  | none => ""

/-- What stands in the place of a piece: text stays, and a tag gives way to its text or to what its
helper makes of it. -/
def inPlace (fields : List (String × String)) : Template.Content → String
  | .plain text => text
  | .field name => (text? fields name).getD ""
  | .call helper args =>
    ((Helper.ofName? helper).map fun h => h.apply (argumentIn fields args.head?)).getD ""

/-- A template with its tags replaced. -/
def fill (fields : List (String × String)) (pieces : List Piece) : String :=
  String.join (pieces.map fun p => inPlace fields p.content)

/-- Whether what a piece asks for is there. -/
def isAnswered (names : List String) : Template.Content → Bool
  | .plain _ => true
  | .field name => name ∈ names
  | .call helper _ => (Helper.ofName? helper).isSome

variable {fields : List (String × String)} {template : String} {pieces : List Piece}

def dataOf (fields : List (String × String)) : Json.Value :=
  .object (fields.map fun e => (e.1, .string e.2))

theorem member?_dataOf (fields : List (String × String)) (name : String) :
    (dataOf fields).member? name = (text? fields name).map .string := by
  rw [dataOf, Json.Value.member?, ← List.map_reverse, List.find?_map, text?, Option.map_map,
    Option.map_map]
  rfl

theorem isSome_text? {name : String} (h : name ∈ fields.map Prod.fst) :
    (text? fields name).isSome = true := by
  obtain ⟨e, he, rfl⟩ := List.mem_map.mp h
  rw [text?, Option.isSome_map, List.find?_isSome]
  exact ⟨e, List.mem_reverse.mpr he, by simp⟩

theorem argumentText_dataOf (fields : List (String × String)) (argument : Option Argument) :
    argumentText (dataOf fields) argument = argumentIn fields argument := by
  cases argument with
  | none => rfl
  | some argument =>
    cases argument with
    | literal text => rfl
    | named name =>
      rw [argumentText, argumentIn, member?_dataOf]
      cases text? fields name <;> rfl

/-- A piece is rendered wherever it stands, if what it asks for is there. -/
theorem renderPiece_eq {c : Template.Content} (h : isAnswered (fields.map Prod.fst) c = true)
    (template : String) (place : Nat × Nat) :
    renderPiece template place (dataOf fields) c = .ok (inPlace fields c) := by
  cases c with
  | plain text => rfl
  | field name =>
    obtain ⟨text, ht⟩ := Option.isSome_iff_exists.mp (isSome_text? (of_decide_eq_true h))
    simp only [renderPiece, member?_dataOf, inPlace, ht, Option.map_some, Option.getD_some, display]
  | call helper args =>
    obtain ⟨helper', hh⟩ := Option.isSome_iff_exists.mp h
    simp only [renderPiece, hh, argumentText_dataOf, inPlace, Option.map_some, Option.getD_some]

/-- What has been written before a piece matters for the places of faults only. -/
theorem renderPieces_eq (h : ∀ p ∈ pieces, isAnswered (fields.map Prod.fst) p.content = true)
    (template before : String) :
    renderPieces template (dataOf fields) before pieces = .ok (fill fields pieces) := by
  induction pieces generalizing before with
  | nil => rfl
  | cons p ps ih =>
    obtain ⟨hp, hps⟩ := List.forall_mem_cons.mp h
    rw [renderPieces, renderPiece_eq hp, ih hps]
    simp [fill]
    rfl

theorem renderSource_eq (ht : (template, pieces) ∈ templates)
    (h : (pieces.all fun p => isAnswered (fields.map Prod.fst) p.content) = true) :
    renderSource template fields = .ok (fill fields pieces) := by
  have hrender := renderPieces_eq (List.all_eq_true.mp h) template ""
  rw [renderSource, Library.render, get?_templates _ ht]
  exact congrArg (Except.mapError SourceError.template) hrender

theorem fill_cons (fields : List (String × String)) (p : Piece) (ps : List Piece) :
    fill fields (p :: ps) = inPlace fields p.content ++ fill fields ps :=
  String.join_cons

theorem skeleton_eq (title : String) :
    skeleton title = .ok (skeletonFiles.map fun e => ⟨e.1, fill [("title", title)] e.2⟩) := by
  have hanswered : ∀ e ∈ skeletonFiles,
      (e.2.all fun p => isAnswered ["title"] p.content) = true := by decide
  have hfile : ∀ e ∈ skeletonFiles,
      renderSource e.1 [("title", title)] = .ok (fill [("title", title)] e.2) := fun e he =>
    renderSource_eq (List.mem_cons_of_mem _ (List.mem_cons_of_mem _ he)) (hanswered e he)
  refine mapM_ok_iff.mpr (List.forall₂_map_right_iff.mpr (List.forall₂_same.mpr fun e he => ?_))
  simp only [hfile e he]
  rfl

end Screenwright.Proofs.Rendering
