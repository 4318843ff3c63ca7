import Screenwright.Proofs.Rendering
import Screenwright.Proofs.Stripping
import Screenwright.Proofs.Words

namespace Screenwright.Proofs.Manifests
open Flutter Pub Text Rendering Stripping Words

def reservedWords : List String :=
  ["assert", "break", "case", "catch", "class", "const", "continue", "default", "do", "else",
    "enum", "extends", "false", "final", "finally", "for", "if", "in", "is", "new", "null",
    "rethrow", "return", "super", "switch", "this", "throw", "true", "try", "var", "void", "while",
    "with"]

def linesOf (content : String) : List (List Char) := pieces (· = '\n') content.toList

/-- The name that a manifest gives on its first line. -/
def nameIn? (content : String) : Option String :=
  match linesOf content with
  | [] => none
  | line :: _ =>
    let key := "name: ".toList
    if key.isPrefixOf line then some (String.ofList (line.drop key.length)) else none

/-- The headings of the packages that a manifest depends on. -/
def isHeading (line : List Char) : Bool :=
  line = "dependencies:".toList || line = "dev_dependencies:".toList

/-- Whether a line stands two columns further to the right than a heading. -/
def isEntry (line : List Char) : Bool :=
  line.take 2 = [' ', ' '] && (line.drop 2).head?.any (· ≠ ' ')

/-- The packages that lines list below a heading. -/
def listed : (below : Bool) → List (List Char) → List String
  | _, [] => []
  | below, line :: lines =>
    if line.head?.any (· ≠ ' ') then listed (isHeading line) lines
    else if below && isEntry line then
      String.ofList ((line.drop 2).takeWhile (· ≠ ':')) :: listed below lines
    else listed below lines

def dependencies (content : String) : List String := listed false (linesOf content)

/-- A name as a package may have it, apart from words that have a meaning of their own. -/
structure Formed (name : String) : Prop where
  nonempty : name ≠ ""
  chars : ∀ c ∈ name.toList, c.isLower = true ∨ c.isDigit = true ∨ c = '_'
  head : ∀ c, name.toList.head? = some c → c.isLower = true
  last : ∀ c, name.toList.getLast? = some c → c.isLower = true ∨ c.isDigit = true

/-- A name that a manifest may give to its package. -/
structure Accepted (content name : String) : Prop extends Formed name where
  unreserved : name ∉ reservedWords
  independent : name ∉ dependencies content

/-- What a title spells: its words in lower case with underscores between them, as far as a package
name may consist of that, and with no underscore at either end. -/
def spelled (title : String) : List Char :=
  stripWhile (· = '_') ((snake title).filter isNameChar)

variable {title : String} {c : Char} {cs : List Char}

theorem isNameChar_iff : isNameChar c = true ↔ c.isLower = true ∨ c.isDigit = true ∨ c = '_' := by
  have hname : isNameChar c = (c.isDigit || c.isLower || c = '_') := rfl
  rw [hname, Bool.or_eq_true, Bool.or_eq_true, decide_eq_true_eq, or_comm (a := c.isDigit = true),
    or_assoc]

theorem chars_of_all (h : cs.all isNameChar = true) :
    ∀ c ∈ cs, c.isLower = true ∨ c.isDigit = true ∨ c = '_' := fun c hc =>
  isNameChar_iff.mp (List.all_eq_true.mp h c hc)

theorem chars_spelled (h : c ∈ spelled title) : c.isLower = true ∨ c.isDigit = true ∨ c = '_' :=
  isNameChar_iff.mp (List.mem_filter.mp (mem_of_mem_stripWhile h)).2

theorem lower_or_digit_of_mem_spelled (h : c ∈ spelled title) (hne : c ≠ '_') :
    c.isLower = true ∨ c.isDigit = true := by
  rcases chars_spelled h with hlower | hdigit | hunderscore
  · exact .inl hlower
  · exact .inr hdigit
  · exact absurd hunderscore hne

theorem head_spelled (h : (spelled title).head? = some c) : c.isLower = true ∨ c.isDigit = true :=
  lower_or_digit_of_mem_spelled (List.mem_of_mem_head? h)
    (of_decide_eq_false (head?_stripWhile h))

theorem last_spelled (h : (spelled title).getLast? = some c) :
    c.isLower = true ∨ c.isDigit = true :=
  lower_or_digit_of_mem_spelled (List.mem_of_getLast? h)
    (of_decide_eq_false (getLast?_stripWhile h))

theorem packageName_of_nil (h : spelled title = []) : packageName title = "flutter_project" := by
  unfold spelled at h
  rw [packageName, h]

/-- A digit in front gets a word before it, and everything else stays. -/
theorem packageName_of_cons (h : spelled title = c :: cs) :
    packageName title =
      if c.isDigit then "app_" ++ String.ofList (c :: cs) else String.ofList (c :: cs) := by
  unfold spelled at h
  rw [packageName, h]
  rfl

theorem formed_ofList (hchars : ∀ d ∈ c :: cs, d.isLower = true ∨ d.isDigit = true ∨ d = '_')
    (hhead : c.isLower = true)
    (hlast : ∀ d, (c :: cs).getLast? = some d → d.isLower = true ∨ d.isDigit = true) :
    Formed (String.ofList (c :: cs)) := by
  constructor
  case nonempty => simp
  case chars => simpa using hchars
  case head =>
    rw [String.toList_ofList]
    rintro d ⟨⟩
    exact hhead
  case last => simpa using hlast

theorem formed_packageName (title : String) : Formed (packageName title) := by
  cases hs : spelled title with
  | nil =>
    have hdefault : "flutter_project" = String.ofList ('f' :: "lutter_project".toList) := rfl
    rw [packageName_of_nil hs, hdefault]
    refine formed_ofList (chars_of_all rfl) rfl ?_
    rintro d ⟨⟩
    decide
  | cons c cs =>
    have hchars : ∀ d ∈ c :: cs, d.isLower = true ∨ d.isDigit = true ∨ d = '_' :=
      fun d hd => chars_spelled (hs ▸ hd)
    have hhead : c.isLower = true ∨ c.isDigit = true := head_spelled (by rw [hs]; rfl)
    have hlast : ∀ d, (c :: cs).getLast? = some d → d.isLower = true ∨ d.isDigit = true :=
      fun d hd => last_spelled (hs ▸ hd)
    rw [packageName_of_cons hs]
    split
    · have happ : "app_" ++ String.ofList (c :: cs) =
          String.ofList ('a' :: ("pp_".toList ++ c :: cs)) := by
        rw [← List.cons_append, String.ofList_append]
        rfl
      rw [happ]
      refine formed_ofList ?_ rfl ?_
      · rw [← List.cons_append, List.forall_mem_append]
        exact ⟨chars_of_all rfl, hchars⟩
      · rw [← List.cons_append, List.getLast?_append_of_ne_nil _ (List.cons_ne_nil c cs)]
        exact hlast
    · next hdigit => exact formed_ofList hchars (hhead.resolve_right hdigit) hlast

def packages : List String := ["flutter", "cupertino_icons", "flutter_test", "flutter_lints"]

/-- The default and names with a word in front of a digit are none of the words to be avoided. -/
theorem packageName_mem_iff (title : String) :
    packageName title ∈ reservedWords ++ packages ↔
      String.ofList (spelled title) ∈ reservedWords ++ packages := by
  have hwords : ∀ w ∈ reservedWords ++ packages,
      ¬ "app_".toList <+: w.toList ∧ w.toList.head?.any Char.isDigit = false := by
    decide +kernel
  cases hs : spelled title with
  | nil =>
    rw [packageName_of_nil hs]
    decide +kernel
  | cons c cs =>
    rw [packageName_of_cons hs]
    split
    · next hdigit =>
      refine iff_of_false (fun h => (hwords _ h).1 ?_) fun h => ?_
      · rw [String.toList_append]
        exact List.prefix_append _ _
      · have hhead := (hwords _ h).2
        rw [String.toList_ofList, List.head?_cons, Option.any_some, hdigit] at hhead
        cases hhead
    · rfl

theorem inPlace_call_packageName (title : String) :
    inPlace [("title", title)] (Template.Piece.call "package_name" "title").content =
      packageName title := by
  have hhelper : Template.Helper.ofName? "package_name" = some .packageName := rfl
  have htext : text? [("title", title)] "title" = some title := rfl
  simp only [Template.Piece.call, inPlace, hhelper, List.head?_cons, argumentIn, htext,
    Option.getD_some, Option.map_some, Template.Helper.apply]

set_option maxRecDepth 4000 in
theorem manifest_eq :
    ∃ rest, Template.manifest = [.plain "name: ", .call "package_name" "title",
        .plain (String.ofList ('\n' :: rest))] ∧
      listed false (pieces (· = '\n') rest) = packages := by
  refine ⟨_, rfl, ?_⟩
  decide

theorem linesOf_manifest (title : String) :
    ∃ lines, linesOf (fill [("title", title)] Template.manifest) =
        ("name: ".toList ++ (packageName title).toList) :: lines ∧
      listed false lines = packages := by
  obtain ⟨rest, hmanifest, hlisted⟩ := manifest_eq
  refine ⟨pieces (· = '\n') rest, ?_, hlisted⟩
  have hname : '\n' ∉ (packageName title).toList := fun hbreak =>
    absurd ((formed_packageName title).chars _ hbreak) (by decide)
  have hline : ∀ c ∈ "name: ".toList ++ (packageName title).toList, c ≠ '\n' := by
    rintro c hc rfl
    exact (List.mem_append.mp hc).elim (by decide) hname
  have hcontent : fill [("title", title)] Template.manifest =
      "name: " ++ (packageName title ++ String.ofList ('\n' :: rest)) := by
    rw [hmanifest, fill_cons, fill_cons, inPlace_call_packageName, fill, List.map_singleton]
    simp [inPlace, Template.Piece.plain]
  have hpieces : pieces (· = '\n') ("name: ".toList ++ (packageName title).toList ++ '\n' :: rest) =
      ("name: ".toList ++ (packageName title).toList) :: pieces (· = '\n') rest := by
    rw [pieces_append (by decide), pieces_eq fun c hc => by simp [hline c hc],
      List.singleton_append]
  rw [linesOf, hcontent]
  simpa using hpieces

theorem nameIn?_manifest (title : String) :
    nameIn? (fill [("title", title)] Template.manifest) = some (packageName title) := by
  obtain ⟨lines, hlines, _⟩ := linesOf_manifest title
  rw [nameIn?, hlines]
  simp

theorem dependencies_manifest (title : String) :
    dependencies (fill [("title", title)] Template.manifest) = packages := by
  obtain ⟨lines, hlines, hlisted⟩ := linesOf_manifest title
  have hheading : isHeading ("name: ".toList ++ (packageName title).toList) = false := by
    simp [isHeading]
  rw [dependencies, hlines, ← hlisted, ← hheading]
  rfl

/-- Every project has a manifest with its package name on the first line, which is well formed. It
is one that a manifest may give exactly if the title does not spell a reserved word or one of the
packages that the manifest depends on. -/
theorem manifest_named (title : String) :
    ∃ content more, skeleton title = .ok (⟨"pubspec.yaml", content⟩ :: more) ∧
      nameIn? content = some (packageName title) ∧ Formed (packageName title) ∧
      (Accepted content (packageName title) ↔
        String.ofList (spelled title) ∉ reservedWords ++ dependencies content) := by
  refine ⟨_, _, skeleton_eq title, nameIn?_manifest title, formed_packageName title, ?_⟩
  rw [dependencies_manifest, ← packageName_mem_iff, List.mem_append, not_or]
  constructor
  · intro h
    exact ⟨h.unreserved, dependencies_manifest title ▸ h.independent⟩
  · rintro ⟨hunreserved, hindependent⟩
    exact ⟨formed_packageName title, hunreserved, (dependencies_manifest title).symm ▸ hindependent⟩

theorem manifest_class :
    ∃ content more, skeleton "class" = .ok (⟨"pubspec.yaml", content⟩ :: more) ∧
      nameIn? content = some "class" ∧ ¬ Accepted content "class" := by
  have hname : packageName "class" = "class" := by decide +kernel
  refine ⟨_, _, skeleton_eq "class", ?_, fun h => h.unreserved (by decide)⟩
  rw [nameIn?_manifest, hname]

end Screenwright.Proofs.Manifests
