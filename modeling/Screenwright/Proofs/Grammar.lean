import Screenwright.Proofs.Containers

namespace Screenwright.Proofs.Grammar
open Json Outline Decode Text Numerals Scanning Outlines Texts Containers Outcomes

/-- A document. A number, a string or a key may be well formed and still not be readable: too large,
or with half a surrogate pair. -/
inductive Doc where
  | null
  | bool (b : Bool)
  | number (n : Option Number)
  | string (s : Option String)
  | list (items : List Doc)
  | object (members : List (Option String × Doc))

abbrev DocMembers := List (Option String × Doc)

mutual

/-- What holds of every document whose parts it holds of holds of all documents. -/
@[elab_as_elim]
theorem doc_induction {P : Doc → Prop} (null : P .null) (bool : ∀ b, P (.bool b))
    (number : ∀ n, P (.number n)) (string : ∀ s, P (.string s))
    (list : ∀ items, (∀ d ∈ items, P d) → P (.list items))
    (object : ∀ members : DocMembers, (∀ m ∈ members, P m.2) → P (.object members)) : ∀ d, P d
  | .null => null
  | .bool b => bool b
  | .number n => number n
  | .string s => string s
  | .list items => list items (doc_items_induction null bool number string list object items)
  | .object members =>
    object members (doc_members_induction null bool number string list object members)

theorem doc_items_induction {P : Doc → Prop} (null : P .null) (bool : ∀ b, P (.bool b))
    (number : ∀ n, P (.number n)) (string : ∀ s, P (.string s))
    (list : ∀ items, (∀ d ∈ items, P d) → P (.list items))
    (object : ∀ members : DocMembers, (∀ m ∈ members, P m.2) → P (.object members)) :
    ∀ items : List Doc, ∀ d ∈ items, P d
  | [] => fun _ h => nomatch h
  | d :: ds => List.forall_mem_cons.mpr
    ⟨doc_induction null bool number string list object d,
      doc_items_induction null bool number string list object ds⟩

theorem doc_members_induction {P : Doc → Prop} (null : P .null) (bool : ∀ b, P (.bool b))
    (number : ∀ n, P (.number n)) (string : ∀ s, P (.string s))
    (list : ∀ items, (∀ d ∈ items, P d) → P (.list items))
    (object : ∀ members : DocMembers, (∀ m ∈ members, P m.2) → P (.object members)) :
    ∀ members : DocMembers, ∀ m ∈ members, P m.2
  | [] => fun _ h => nomatch h
  | (_, d) :: ms => List.forall_mem_cons.mpr
    ⟨doc_induction null bool number string list object d,
      doc_members_induction null bool number string list object ms⟩

end

def Digits (ds : List Char) : Prop := ds ≠ [] ∧ ∀ c ∈ ds, isDigit c = true

/-- The digits in front of the point; a leading zero stands alone. -/
inductive Whole : List Char → Prop where
  | zero : Whole ['0']
  | digits {d : Char} {ds : List Char} (hd : d ≠ '0') (h : Digits (d :: ds)) : Whole (d :: ds)

inductive Fraction : List Char → Option (List Char) → Prop where
  | none : Fraction [] none
  | digits {ds : List Char} (h : Digits ds) : Fraction ('.' :: ds) (some ds)

inductive Exponent : List Char → Option (Bool × List Char) → Prop where
  | none : Exponent [] none
  | digits {e : Char} {sign ds : List Char} (he : e = 'e' ∨ e = 'E')
      (hsign : sign = [] ∨ sign = ['+'] ∨ sign = ['-']) (h : Digits ds) :
      Exponent (e :: (sign ++ ds)) (some (decide (sign = ['-']), ds))

inductive WritesNumber : List Char → Numeral → Prop where
  | mk {whole f e : List Char} {fraction : Option (List Char)}
      {exponent : Option (Bool × List Char)} (negative : Bool) (hwhole : Whole whole)
      (hf : Fraction f fraction) (he : Exponent e exponent) :
      WritesNumber ((if negative then ['-'] else []) ++ (whole ++ (f ++ e)))
        ⟨negative, whole, fraction, exponent⟩

inductive Body : List Char → Prop where
  | nil : Body []
  | plain {c : Char} {cs : List Char} (hquote : c ≠ '"') (hescape : c ≠ '\\')
      (hcontrol : ¬ c.toNat < 32) (h : Body cs) : Body (c :: cs)
  | escape {e : Char} {cs : List Char} (he : e ∈ ['"', '\\', '/', 'b', 'f', 'n', 'r', 't'])
      (h : Body cs) : Body ('\\' :: e :: cs)
  | unit {a b c d : Char} {cs : List Char}
      (hunit : ∀ x ∈ [a, b, c, d], (hexValue? x).isSome = true) (h : Body cs) :
      Body ('\\' :: 'u' :: a :: b :: c :: d :: cs)

/-- A token with blanks around it. -/
def Padded (core text : List Char) : Prop :=
  ∃ before after, skipBlank before = [] ∧ skipBlank after = [] ∧ text = before ++ (core ++ after)

def WritesString (text : List Char) (s : Option String) : Prop :=
  ∃ body, Body body ∧ s = (readText (body ++ ['"'])).toOption ∧
    Padded ('"' :: (body ++ ['"'])) text

mutual

/-- The texts of a document. -/
def Writes : List Char → Doc → Prop
  | text, .null => Padded ['n', 'u', 'l', 'l'] text
  | text, .bool true => Padded ['t', 'r', 'u', 'e'] text
  | text, .bool false => Padded ['f', 'a', 'l', 's', 'e'] text
  | text, .number n => ∃ literal numeral, WritesNumber literal numeral ∧
      n = (numeral.value []).toOption ∧ Padded literal text
  | text, .string s => WritesString text s
  | text, .list items => ∃ texts blanks, WritesItems texts items ∧ skipBlank blanks = [] ∧
      Padded ('[' :: (joined texts ++ (blanks ++ [']']))) text
  | text, .object members => ∃ texts blanks, WritesMembers texts members ∧ skipBlank blanks = [] ∧
      Padded ('\x7b' :: (joined (texts.map memberText) ++ (blanks ++ ['\x7d']))) text

def WritesItems : List (List Char) → List Doc → Prop
  | [], [] => True
  | text :: texts, d :: ds => Writes text d ∧ WritesItems texts ds
  | _, _ => False

def WritesMembers : List (List Char × List Char) → DocMembers → Prop
  | [], [] => True
  | m :: ms, (key, d) :: ds => (WritesString m.1 key ∧ Writes m.2 d) ∧ WritesMembers ms ds
  | _, _ => False

end

variable {text rest : List Char}

theorem Digits.head {ds : List Char} (h : Digits ds) :
    ∃ d tail, ds = d :: tail ∧ isDigit d = true := by
  obtain ⟨d, tail, rfl⟩ := List.exists_cons_of_ne_nil h.1
  exact ⟨d, tail, rfl, h.2 d List.mem_cons_self⟩

theorem Digits.cut {ds : List Char} (h : Digits ds) (hrest : ∀ c ∈ rest.head?, isDigit c = false) :
    (ds ++ rest).takeWhile isDigit = ds ∧ (ds ++ rest).dropWhile isDigit = rest := by
  rw [List.takeWhile_append_of_pos h.2, List.dropWhile_append_of_pos h.2]
  cases rest with
  | nil => simp
  | cons c rest =>
    have hc : isDigit c = false := hrest c rfl
    simp [hc]

theorem scan_exponent {e : List Char} {exponent : Option (Bool × List Char)}
    (h : Exponent e exponent) (negative : Bool) (whole : List Char)
    (fraction : Option (List Char)) :
    Numeral.scanExponent ⟨negative, whole, fraction, none⟩ e =
      .ok (⟨negative, whole, fraction, exponent⟩, []) := by
  cases h with
  | none => rfl
  | @digits c sign ds he hsign hds =>
    have hend : ∀ c ∈ ([] : List Char).head?, isDigit c = false := fun _ h => nomatch h
    obtain ⟨htake, hdrop⟩ := hds.cut hend
    obtain ⟨d, tail, rfl, hd⟩ := hds.head
    rw [List.append_nil] at htake hdrop
    have hmark (c : Char) (hc : isDigit c = false) : d ≠ c := ne_of_test hd hc
    have hunsigned : unsigned (sign ++ d :: tail) = d :: tail := by
      rcases hsign with rfl | rfl | rfl
      · exact if_neg (by simp [hmark '-' rfl, hmark '+' rfl])
      · rfl
      · rfl
    have hdown : decide ((sign ++ d :: tail).head? = some '-') = decide (sign = ['-']) := by
      rcases hsign with rfl | rfl | rfl
      · simp [hmark '-' rfl]
      · rfl
      · rfl
    rw [scanExponent_cons, if_pos he, hunsigned, hdown, exponentDigits, if_pos hd, htake, hdrop]

theorem head_exponent {e : List Char} {exponent : Option (Bool × List Char)}
    (h : Exponent e exponent) : ∀ c ∈ e.head?, c = 'e' ∨ c = 'E' := by
  cases h with
  | none => exact fun _ h => nomatch h
  | digits he => exact fun _ h => Option.some.inj h ▸ he

theorem scan_fraction {f e : List Char} {fraction : Option (List Char)}
    {exponent : Option (Bool × List Char)} (hf : Fraction f fraction) (he : Exponent e exponent)
    (negative : Bool) (whole : List Char) :
    Numeral.scanFraction ⟨negative, whole, none, none⟩ (f ++ e) =
      .ok (⟨negative, whole, fraction, exponent⟩, []) := by
  have hexponent := scan_exponent he negative whole
  have hhead := head_exponent he
  cases hf with
  | none =>
    rw [List.nil_append, ← hexponent]
    cases e with
    | nil => rfl
    | cons c e => rcases hhead c rfl with rfl | rfl <;> rfl
  | @digits ds hds =>
    have hnot : ∀ c ∈ e.head?, isDigit c = false := by
      intro c hc
      rcases hhead c hc with rfl | rfl <;> rfl
    obtain ⟨htake, hdrop⟩ := hds.cut hnot
    obtain ⟨d, tail, rfl, hd⟩ := hds.head
    rw [List.cons_append, List.cons_append, Numeral.scanFraction]
    rw [List.cons_append] at htake hdrop
    rw [if_pos hd, htake, hdrop, hexponent]

theorem Whole.head {whole : List Char} (h : Whole whole) :
    ∃ d tail, whole = d :: tail ∧ isDigit d = true := by
  cases h with
  | zero => exact ⟨_, _, rfl, rfl⟩
  | digits _ hds => exact hds.head

theorem scan_number {numeral : Numeral} (h : WritesNumber text numeral) :
    Numeral.scan text = .ok (numeral, []) := by
  obtain @⟨whole, f, e, fraction, exponent, negative, hwhole, hf, he⟩ := h
  have hfraction := scan_fraction hf he negative
  have hhead : ∀ c ∈ (f ++ e).head?, isDigit c = false := by
    intro c hc
    cases hf with
    | none => rcases head_exponent he c hc with rfl | rfl <;> rfl
    | digits => cases hc; rfl
  have hscan : Numeral.scanWhole negative (whole ++ (f ++ e)) =
      .ok (⟨negative, whole, fraction, exponent⟩, []) := by
    cases hwhole with
    | zero =>
      have hany : ¬ (f ++ e).head?.any isDigit = true := by
        cases hfe : (f ++ e).head? with
        | none => exact Bool.false_ne_true
        | some c => simp [hhead c hfe]
      rw [List.singleton_append, Numeral.scanWhole, if_pos rfl, if_neg hany, hfraction]
    | @digits d ds hd hds =>
      obtain ⟨htake, hdrop⟩ := hds.cut hhead
      rw [List.cons_append] at htake hdrop ⊢
      rw [Numeral.scanWhole, if_neg hd, if_pos (hds.2 d List.mem_cons_self), htake, hdrop,
        hfraction]
  cases negative with
  | true => exact hscan
  | false =>
    obtain ⟨d, tail, hd, hdigit⟩ := hwhole.head
    subst hd
    exact (scan_unsigned hdigit _).trans hscan

/-- A string is closed by its own quote. -/
theorem scan_body {body : List Char} (h : Body body) (rest : List Char) :
    (scanText (body ++ '"' :: rest)).2 = .closed rest := by
  induction h with
  | nil => rfl
  | plain hquote hescape hcontrol _ ih =>
    rw [List.cons_append, scanText_char hquote hescape hcontrol]
    exact ih
  | @escape e cs he _ ih =>
    have hunescape : ∀ e ∈ ['"', '\\', '/', 'b', 'f', 'n', 'r', 't'],
        ∃ c, unescape? e = some c := by
      simp only [List.forall_mem_cons]
      exact ⟨⟨_, rfl⟩, ⟨_, rfl⟩, ⟨_, rfl⟩, ⟨_, rfl⟩, ⟨_, rfl⟩, ⟨_, rfl⟩, ⟨_, rfl⟩, ⟨_, rfl⟩,
        fun _ h => nomatch h⟩
    obtain ⟨c, hc⟩ := hunescape e he
    rw [List.cons_append, List.cons_append, scanText_escape hc]
    exact ih
  | @unit a b c d cs hunit _ ih =>
    simp only [List.forall_mem_cons, Option.isSome_iff_exists] at hunit
    obtain ⟨⟨a', ha⟩, ⟨b', hb⟩, ⟨c', hc⟩, ⟨d', hd⟩, -⟩ := hunit
    have hhex : hexUnit? a b c d = some (((a' * 16 + b') * 16 + c') * 16 + d') := by
      simp [hexUnit?, ha, hb, hc, hd]
    rw [List.cons_append, List.cons_append, List.cons_append, List.cons_append, List.cons_append,
      List.cons_append, scanText_unit hhex]
    exact ih

theorem writesItems_iff {texts : List (List Char)} {ds : List Doc} :
    WritesItems texts ds ↔ List.Forall₂ Writes texts ds := by
  induction ds generalizing texts with
  | nil => cases texts <;> simp [WritesItems]
  | cons d ds ih => cases texts <;> simp [WritesItems, ih]

theorem writesMembers_iff {texts : List (List Char × List Char)} {ds : DocMembers} :
    WritesMembers texts ds ↔
      List.Forall₂ (fun m e => WritesString m.1 e.1 ∧ Writes m.2 e.2) texts ds := by
  induction ds generalizing texts with
  | nil => cases texts <;> simp [WritesMembers]
  | cons d ds ih => cases texts <;> simp [WritesMembers, ih]

def HasKey (read : Except Fault String) (key : Option String) : Prop := read.toOption = key

mutual

/-- The outlines of a document, with all of its containers closed. -/
def HasDoc : Outline → Doc → Prop
  | o, .null => ∃ start stop, o = .scalar .null start stop
  | o, .bool b => ∃ start stop, o = .scalar (.bool b) start stop
  | o, .number n => ∃ read start stop, o = .scalar (.number read) start stop ∧ read.toOption = n
  | o, .string s => ∃ read start stop, o = .scalar (.string read) start stop ∧ HasKey read s
  | o, .list ds => ∃ start items stop, o = .list start items (.closed stop) ∧ HasDocs items ds
  | o, .object ds => ∃ start members stop, o = .object start members (.closed stop) ∧
      HasDocMembers members ds

def HasDocs : List Outline → List Doc → Prop
  | [], [] => True
  | o :: os, d :: ds => HasDoc o d ∧ HasDocs os ds
  | _, _ => False

def HasDocMembers : List (Key × Outline) → DocMembers → Prop
  | [], [] => True
  | m :: ms, (key, d) :: ds => (HasKey m.1.name key ∧ HasDoc m.2 d) ∧ HasDocMembers ms ds
  | _, _ => False

end

theorem hasDocs_iff {os : List Outline} {ds : List Doc} :
    HasDocs os ds ↔ List.Forall₂ HasDoc os ds := by
  induction ds generalizing os with
  | nil => cases os <;> simp [HasDocs]
  | cons d ds ih => cases os <;> simp [HasDocs, ih]

theorem hasDocMembers_iff {ms : List (Key × Outline)} {ds : DocMembers} :
    HasDocMembers ms ds ↔ List.Forall₂ (EntryFor HasKey HasDoc) ms ds := by
  induction ds generalizing ms with
  | nil => cases ms <;> simp [HasDocMembers]
  | cons d ds ih => cases ms <;> simp [HasDocMembers, EntryFor, ih]

theorem unbroken_hasDoc : Unbroken HasDoc := by
  intro start strict loose d h
  cases d with
  | null | bool =>
    obtain ⟨_, _, h⟩ := h
    cases h
  | _ =>
    obtain ⟨_, _, _, h, _⟩ := h
    cases h

/-- A token that is a value, in front of any text that it does not go on with. -/
theorem stands_token {c : Char} {tail : List Char} {d : Doc} (hblank : Json.isBlank c = false)
    (hscan : ∀ rest, Clear rest → ∃ s, scanToken c (tail ++ rest) = (.scalar s, rest) ∧
      ∀ start, HasDoc (.scalar s start rest) d) : StandsFor HasDoc (c :: tail) d := by
  intro rest hrest
  obtain ⟨s, hs, hdoc⟩ := hscan rest hrest
  refine ⟨_, hdoc (c :: (tail ++ rest)), rfl, fun outer => ?_⟩
  have hskip : skipBlank (c :: tail ++ rest) = c :: (tail ++ rest) :=
    List.dropWhile_cons_of_neg (by simp [hblank])
  rw [tokens_cons hskip, hs, build_cons]
  rfl

theorem stands_padded {core : List Char} {d : Doc} (hpadded : Padded core text)
    (h : StandsFor HasDoc core d) : StandsFor HasDoc text d := by
  obtain ⟨before, after, hbefore, hafter, rfl⟩ := hpadded
  exact h.blanks hbefore hafter

theorem scan_string {body : List Char} (h : Body body) (rest : List Char) :
    ∃ read, scanToken '"' (body ++ '"' :: rest) = (.scalar (.string read), rest) ∧
      HasKey read (readText (body ++ ['"'])).toOption := by
  have hread := toOption_readText_append (scan_body h []) rest
  rw [List.append_assoc, List.singleton_append] at hread
  refine ⟨readText (body ++ '"' :: rest), ?_, hread⟩
  change scanString _ = _
  rw [scanString, scan_body h]

theorem names_of_writes {key : Option String} (h : WritesString text key) :
    NamesFor HasKey text key := by
  obtain ⟨body, hbody, rfl, before, after, hbefore, hafter, rfl⟩ := h
  refine NamesFor.blanks (fun rest _ => ?_) hbefore hafter
  obtain ⟨read, hscan, hread⟩ := scan_string hbody rest
  have hskip : skipBlank ('"' :: (body ++ ['"']) ++ rest) = '"' :: (body ++ '"' :: rest) := by
    rw [List.cons_append, List.append_assoc, List.singleton_append]
    rfl
  exact ⟨read, _, _, hread, by rw [tokens_cons hskip, hscan]⟩

theorem toOption_value (numeral : Numeral) (rest : List Char) :
    (numeral.value rest).toOption = (numeral.value []).toOption := by
  refine Option.ext fun n => ?_
  rw [toOption_eq_some_iff, toOption_eq_some_iff]
  exact ⟨fun h => (settled_value numeral h).2 _, fun h => (settled_value numeral h).2 _⟩

/-- The first character of a number tells it from all other tokens. -/
theorem scanToken_number {numeral : Numeral} (h : WritesNumber text numeral) :
    ∃ c tail, text = c :: tail ∧ Json.isBlank c = false ∧
      ∀ rest, scanToken c (tail ++ rest) = scanNumber (c :: (tail ++ rest)) := by
  obtain @⟨whole, f, e, _, _, negative, hwhole, hf, he⟩ := h
  cases negative with
  | true => exact ⟨'-', whole ++ (f ++ e), rfl, rfl, fun _ => rfl⟩
  | false =>
    obtain ⟨d, tail, rfl, hd⟩ := hwhole.head
    exact ⟨d, tail ++ (f ++ e), rfl, (scanToken_digit hd []).1, fun _ => (scanToken_digit hd _).2⟩

theorem stands_number {numeral : Numeral} (h : WritesNumber text numeral) :
    StandsFor HasDoc text (.number (numeral.value []).toOption) := by
  obtain ⟨c, tail, rfl, hblank, htoken⟩ := scanToken_number h
  refine stands_token hblank fun rest hrest => ?_
  have hcut := cuts_number hrest (scan_number h)
  refine ⟨.number (numeral.value rest), ?_, fun start =>
    ⟨_, _, _, rfl, toOption_value numeral rest⟩⟩
  rw [htoken, scanNumber, ← List.cons_append, hcut]
  rfl

/-- Wherever a value is awaited, the text of a document is outlined as the document. -/
theorem stands_of_writes {d : Doc} (h : Writes text d) : StandsFor HasDoc text d := by
  induction d using doc_induction generalizing text with
  | null =>
    exact stands_padded h (stands_token rfl fun rest _ => ⟨.null, rfl, fun _ => ⟨_, _, rfl⟩⟩)
  | bool b =>
    cases b with
    | true =>
      exact stands_padded h
        (stands_token rfl fun rest _ => ⟨.bool true, rfl, fun _ => ⟨_, _, rfl⟩⟩)
    | false =>
      exact stands_padded h
        (stands_token rfl fun rest _ => ⟨.bool false, rfl, fun _ => ⟨_, _, rfl⟩⟩)
  | number n =>
    obtain ⟨literal, numeral, hliteral, rfl, hpadded⟩ := h
    exact stands_padded hpadded (stands_number hliteral)
  | string s =>
    obtain ⟨body, hbody, rfl, hpadded⟩ := h
    refine stands_padded hpadded (stands_token rfl fun rest _ => ?_)
    obtain ⟨read, hscan, hread⟩ := scan_string hbody rest
    refine ⟨.string read, ?_, fun start => ⟨_, _, _, rfl, hread⟩⟩
    rw [List.append_assoc]
    exact hscan
  | list ds ih =>
    obtain ⟨texts, blanks, htexts, hblanks, hpadded⟩ := h
    have hitems : List.Forall₂ (StandsFor HasDoc) texts ds :=
      forall₂_imp_mem (writesItems_iff.mp htexts) fun text d hd => ih d hd
    refine stands_padded hpadded (standsFor_list unbroken_hasDoc hblanks hitems ?_)
    exact fun os start stop hos => ⟨_, _, _, rfl, hasDocs_iff.mpr hos⟩
  | object ds ih =>
    obtain ⟨texts, blanks, htexts, hblanks, hpadded⟩ := h
    have hmembers : List.Forall₂ (SpellsFor HasKey HasDoc) texts ds :=
      forall₂_imp_mem (writesMembers_iff.mp htexts) fun m e he hm =>
        ⟨names_of_writes hm.1, ih e he hm.2⟩
    refine stands_padded hpadded (standsFor_object hblanks hmembers ?_)
    exact fun os start stop hos => ⟨_, _, _, rfl, hasDocMembers_iff.mpr hos⟩

end Screenwright.Proofs.Grammar
