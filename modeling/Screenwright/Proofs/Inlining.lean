import Screenwright.Export.Request
import Screenwright.Proofs.Documents
import Screenwright.Proofs.Locality
import Screenwright.Proofs.Printing

namespace Screenwright.Proofs.Inlining
open Json Decode Design Export Widget Style Dart Screen
open Canonical Values Documents Numerals Texts Containers Printing Outcomes Locality

theorem code_sameDesign {t t' : DesignTree} (h : SameDesign t t') (routes : Routes) (id : String)
    (indent : Nat) : code routes t id indent = code routes t' id indent := by
  have htwin (id : String) : Option.Rel (Likeness.Twin Eq routes) (t.get? id) (t'.get? id) := by
    have hid := h id
    generalize t.get? id = n at hid
    generalize t'.get? id = n' at hid
    cases hid with
    | none => exact .none
    | some hn =>
      refine .some ⟨hn.kind, hn.children, fun es es' hes => ?_⟩
      rw [(List.forall₂_eq_eq_eq ▸ hes : es = es')]
      exact element_sameProps hn.props routes _ es'
  have hcompiled := Likeness.rel_compileBelow htwin [] id
  rw [code, code, compile, compile, eq_of_rel hcompiled]

/-- A member of a request, by the text of its key and the text of its value. -/
structure WrittenMember where
  key : String
  text : String
  label : String
  document : Value
  names : Value.parse key = .ok (.string label)
  holds : Value.parse text = .ok document

namespace WrittenMember

def source (m : WrittenMember) : String := m.key ++ ":" ++ m.text

def entry (m : WrittenMember) : String × Value := (m.label, m.document)

end WrittenMember

/-- The text of a request; blanks around keys and values belong to the members. -/
structure WrittenRequest where
  before : String
  members : List WrittenMember
  after : String
  blankBefore : skipBlank before.toList = []
  blankAfter : skipBlank after.toList = []

namespace WrittenRequest

def object (w : WrittenRequest) : String :=
  "\x7b" ++ ",".intercalate (w.members.map WrittenMember.source) ++ "\x7d"

def source (w : WrittenRequest) : String := w.before ++ (w.object ++ w.after)

def entries (w : WrittenRequest) : Members := w.members.map WrittenMember.entry

end WrittenRequest

theorem intercalate_eq_joined (texts : List (List Char)) :
    [','].intercalate texts = joined texts := by
  cases texts with
  | nil => rfl
  | cons text texts =>
    induction texts generalizing text with
    | nil => simp [joined, commas]
    | cons next texts ih =>
      rw [List.intercalate_cons_cons, ih]
      simp [joined, commas]

/-- A request holds the documents of its members under their labels. -/
theorem stands_written (w : WrittenRequest) : Stands w.source.toList (.object w.entries) := by
  have hspells : List.Forall₂ Spells (w.members.map fun m => (m.key.toList, m.text.toList))
      w.entries := by
    rw [WrittenRequest.entries]
    rw [List.forall₂_map_left_iff, List.forall₂_map_right_iff, List.forall₂_same]
    exact fun m _ => ⟨names_of_parse m.names, stands_of_parse m.holds⟩
  have hsource (m : WrittenMember) :
      m.source.toList = memberText (m.key.toList, m.text.toList) := by
    simp [WrittenMember.source, memberText]
  have hobject : w.object.toList = '\x7b' ::
      (joined ((w.members.map fun m => (m.key.toList, m.text.toList)).map memberText) ++
        ['\x7d']) := by
    simp [WrittenRequest.object, ← intercalate_eq_joined, Function.comp_def, hsource]
  rw [WrittenRequest.source, String.toList_append, String.toList_append, hobject]
  exact (stands_object hspells).blanks w.blankBefore w.blankAfter

theorem value_of_mapOf {depth : Nat} {o : Outline} {es : Members}
    (h : mapOf value depth o = .ok es) : value depth o = .ok (.object es) := by
  have hself (depth : Nat) (o : Outline) : value depth o = id <$> value depth o :=
    (id_map _).symm
  obtain ⟨es, hvalue, rfl⟩ := (mapOf_ok_iff hself).mp h
  simpa using hvalue

theorem request_written {w : WrittenRequest} {r : Request}
    (h : Request.parse w.source = .ok r) :
    r = .ofList (w.members.map fun m => (m.label, Request.documentOf m.document)) ∧
      ∀ m ∈ w.members, nesting m.document < depthLimit := by
  obtain ⟨hdecode, _⟩ := whole_ok_iff.mp (mapError_ok_iff.mp h)
  obtain ⟨es, hes, hr⟩ := bind_ok_iff.mp hdecode
  have hvalue := value_of_mapOf hes
  obtain ⟨⟨depth, ho⟩, _⟩ := (stands_written w).reads
  obtain rfl : es = w.entries := by
    cases value_unique hvalue ho
    rfl
  refine ⟨?_, fun m hm => ?_⟩
  · rw [← Except.ok.inj hr, WrittenRequest.entries, List.map_map]
    rfl
  · have hlt := nesting_lt hvalue (by decide)
    have hle := memberNesting_le.mp (Nat.le_refl _) _
      (List.mem_map_of_mem (f := WrittenMember.entry) hm)
    exact Nat.lt_of_le_of_lt (Nat.le_trans hle (Nat.le_succ _)) hlt

theorem get?_written {α : Type} {before after : List WrittenMember} {m : WrittenMember}
    (hlast : ∀ other ∈ after, other.label ≠ m.label) (f : WrittenMember → α) :
    (Catalog.ofList ((before ++ m :: after).map fun m => (m.label, f m))).get? m.label =
      some (f m) := by
  have hafter : (after.reverse.map fun m => (m.label, f m)).find? (·.1 = m.label) = none := by
    rw [List.find?_eq_none]
    intro e he
    obtain ⟨other, hother, rfl⟩ := List.mem_map.mp he
    simpa using hlast other (List.mem_reverse.mp hother)
  rw [Catalog.get?_ofList, ← List.map_reverse, List.reverse_append, List.reverse_cons,
    List.append_assoc, List.map_append, List.find?_append, hafter]
  simp

theorem documentOf_eq {v : Value} (h : ∀ s, v ≠ .string s) :
    Request.documentOf v = v.canonical.compact := by
  cases v with
  | string s => exact absurd rfl (h s)
  | _ => rfl

/-- What is kept of a document reads as the document in canonical form. -/
theorem parse_kept {v : Value} (hstring : ∀ s, v ≠ .string s) (hnesting : nesting v < depthLimit)
    (hfits : ∀ n ∈ numbers v, Fits n)
    (hdoubles : ∀ x, .float x ∈ numbers v → x.isFinite = true →
      Value.parse x.scientific = .ok (.number (.float x))) :
    Value.parse (Request.documentOf v) = .ok v.canonical := by
  rw [documentOf_eq hstring]
  refine parse_compact (fun n hn => ?_) (Nat.lt_of_le_of_lt (nesting_canonical v) hnesting)
  have hmem := numbers_canonical hn
  refine readBack_of_fits (hfits n hmem) ?_
  rintro x rfl hx
  exact hdoubles x hmem hx

/-- Two readings of a design that no one can tell apart: both are refused, or both are accepted,
with the same ids, with nodes that are alike, and with the same code. -/
structure SameReading (x y : Except Error DesignTree) : Prop where
  accepted : (∃ t, x = .ok t) ↔ ∃ t, y = .ok t
  ids : ∀ t t', x = .ok t → y = .ok t' → ∀ id, id ∈ t.ids ↔ id ∈ t'.ids
  nodes : ∀ t t', x = .ok t → y = .ok t' → SameDesign t t'
  code : ∀ t t', x = .ok t → y = .ok t' → ∀ routes id indent,
    code routes t id indent = code routes t' id indent

theorem sameReading_of_rel {x y : Except Error DesignTree}
    (h : Option.Rel SameDesign x.toOption y.toOption) : SameReading x y := by
  cases x with
  | error e =>
    cases y with
    | error f =>
      exact ⟨by simp, fun _ _ h => (nomatch h), fun _ _ h => (nomatch h), fun _ _ h => nomatch h⟩
    | ok t' => cases h
  | ok t =>
    cases y with
    | error f => cases h
    | ok t' =>
      obtain ⟨hsame⟩ : Option.Rel SameDesign (some t) (some t') := h
      refine ⟨by simp, ?ids, ?nodes, ?code⟩
      case ids =>
        rintro _ _ ⟨⟩ ⟨⟩ id
        rw [DesignTree.mem_ids_iff, DesignTree.mem_ids_iff, isSome_of_rel (hsame id)]
      case nodes =>
        rintro _ _ ⟨⟩ ⟨⟩
        exact hsame
      case code =>
        rintro _ _ ⟨⟩ ⟨⟩
        exact code_sameDesign hsame

/-- A document that stands for itself in an accepted request, and in which no key comes twice, is
kept as a text that has the effect of the document's own text. -/
theorem inline_as_serialized {w : WrittenRequest} {before after : List WrittenMember}
    {m : WrittenMember} {r : Request} (hrequest : Request.parse w.source = .ok r)
    (hmembers : w.members = before ++ m :: after)
    (hlast : ∀ other ∈ after, other.label ≠ m.label)
    (hstring : ∀ s, m.document ≠ .string s) (hdistinct : Distinct m.document)
    (hdoubles : ∀ x, .float x ∈ numbers m.document → x.isFinite = true →
      Value.parse x.scientific = .ok (.number (.float x))) :
    ∃ kept, r.get? m.label = some kept ∧
      SameReading (DesignTree.parse m.text) (DesignTree.parse kept) := by
  obtain ⟨rfl, hnesting⟩ := request_written hrequest
  rw [hmembers] at hnesting ⊢
  -- Both texts are read as their values are, and those differ in the order of keys only.
  have hkept := parse_kept hstring (hnesting m (by simp)) (fits_of_parse m.holds) hdoubles
  refine ⟨_, get?_written hlast fun m => Request.documentOf m.document, sameReading_of_rel ?_⟩
  rw [parse_design m.holds hdistinct, parse_design hkept (distinct_canonical _)]
  exact blind_design _ hdistinct

/-- A member with escapes and blanks, with numbers in other forms than they are printed in, and with
a node that is a list. -/
def inlined : WrittenMember where
  key := " \"ho\\u006de\""
  text := "\x7b \"ROOT\":\x7b\"type\":\x7b\"resolvedName\":\"Container\"\x7d," ++
    "\"nodes\":[\"a/b\"],\"props\":\x7b\"gap\":1.5e1\x7d\x7d, \"a\\/b\": [\"Text\", false, " ++
    "\x7b\"text\":\"A\\u000a\\u00e9\", \"fontSize\":-0\x7d]\x7d"
  label := "home"
  document := .object [
    ("ROOT", .object [("type", .object [("resolvedName", .string "Container")]),
      ("nodes", .array [.string "a/b"]),
      ("props", .object [("gap", .number (.float ⟨0x402E000000000000⟩))])]),
    ("a/b", .array [.string "Text", .bool false, .object [("text", .string "A\né"),
      ("fontSize", .number (.float ⟨0x8000000000000000⟩))]])]
  names := toOption_eq_some_iff.mp (by decide +kernel)
  holds := toOption_eq_some_iff.mp (by decide +kernel)

def quoted : WrittenMember where
  key := "\"other\""
  text := "\"\x7b\x7d\""
  label := "other"
  document := .string "\x7b\x7d"
  names := toOption_eq_some_iff.mp (by decide +kernel)
  holds := toOption_eq_some_iff.mp (by decide +kernel)

/-- A request with a document that stands for itself, one that is a text, and a last line. -/
def request : WrittenRequest where
  before := ""
  members := [inlined, quoted]
  after := "\n"
  blankBefore := rfl
  blankAfter := by decide

/-- What is kept of the document: its keys in order, its numbers and escapes as they are printed. -/
def keptText : String :=
  "\x7b\"ROOT\":\x7b\"nodes\":[\"a/b\"],\"props\":\x7b\"gap\":15.0\x7d," ++
    "\"type\":\x7b\"resolvedName\":\"Container\"\x7d\x7d,\"a/b\":[\"Text\",false," ++
    "\x7b\"fontSize\":-0.0,\"text\":\"A\\né\"\x7d]\x7d"

theorem inline_as_serialized_home :
    ∃ r t, Request.parse request.source = .ok r ∧
      r.get? inlined.label = some keptText ∧ DesignTree.parse inlined.text = .ok t ∧
      SameReading (DesignTree.parse inlined.text) (DesignTree.parse keptText) := by
  have hrequest : (Request.parse request.source).toOption.bind
      (fun r => r.get? inlined.label) = some keptText := by decide +kernel
  have hmembers : request.members = [] ++ inlined :: [quoted] := rfl
  have hdistinct : Distinct inlined.document := by
    simp [inlined, Distinct, DistinctItems, DistinctMembers]
  have haccepted : (designOf? inlined.document).isSome = true := by decide +kernel
  rw [← parse_design inlined.holds hdistinct] at haccepted
  obtain ⟨r, hr, hkept⟩ := Option.bind_eq_some_iff.mp hrequest
  obtain ⟨t, ht⟩ := Option.isSome_iff_exists.mp haccepted
  have hr := toOption_eq_some_iff.mp hr
  have hdoubles : ∀ x, .float x ∈ numbers inlined.document → x.isFinite = true →
      Value.parse x.scientific = .ok (.number (.float x)) := by
    intro x hx _
    have hcases : x = ⟨0x402E000000000000⟩ ∨ x = ⟨0x8000000000000000⟩ := by
      simpa [inlined, numbers, itemNumbers, memberNumbers] using hx
    rcases hcases with rfl | rfl
    · exact toOption_eq_some_iff.mp (by decide +kernel)
    · exact toOption_eq_some_iff.mp (by decide +kernel)
  have hvalue : ∀ s, inlined.document ≠ .string s := by
    intro s h
    cases h
  obtain ⟨kept, hkept', hsame⟩ := inline_as_serialized hr hmembers (by decide) hvalue hdistinct
    hdoubles
  obtain rfl : kept = keptText := Option.some.inj (hkept'.symm.trans hkept)
  exact ⟨r, t, hr, hkept, toOption_eq_some_iff.mp ht, hsame⟩

end Screenwright.Proofs.Inlining
