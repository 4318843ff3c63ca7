import Screenwright.Design.Props
import Screenwright.Proofs.Printing

namespace Screenwright.Proofs.Reprinting
open Json Decode Design Canonical Numerals Values Texts Printing Outcomes

variable {source : String} {p : Props}

/-- The doubles in a value are printed so that they read back as they are. -/
def DoublesReadBack (v : Value) : Prop :=
  ∀ x, .float x ∈ numbers v → x.isFinite = true →
    Value.parse x.scientific = .ok (.number (.float x))

theorem ofValue_toValue (v : Value) :
    PropValue.ofValue (PropValue.ofValue v).toValue = PropValue.ofValue v := by
  cases v with
  | null | bool | number | string => rfl
  | array vs => exact congrArg PropValue.other (canonical_canonical (.array vs))
  | object es => exact congrArg PropValue.other (canonical_canonical (.object es))

theorem fits_ofValue {v : Value} (h : ∀ n ∈ numbers v, Fits n) :
    ∀ n ∈ numbers (PropValue.ofValue v).toValue, Fits n := by
  intro n hn
  cases v with
  | null | bool | string => cases hn
  | number m =>
    obtain rfl : n = .float m.toBinary64 := List.mem_singleton.mp hn
    exact isFinite_toBinary64 (h m List.mem_cons_self)
  | array | object => exact h n (numbers_canonical hn)

theorem nesting_ofValue (v : Value) : nesting (PropValue.ofValue v).toValue ≤ nesting v := by
  cases v with
  | null | bool | number | string => exact Nat.le_refl _
  | array | object => exact nesting_canonical _

/-- Properties are read from the members of an object, of which the last one under a key counts. -/
theorem parse_props_iff : Props.parse source = .ok p ↔ ∃ es, Value.parse source = .ok (.object es) ∧
    Catalog.ofList (es.map fun e => (e.1, PropValue.ofValue e.2)) = p := by
  have hdecode (depth : Nat) (o : Outline) :
      PropValue.decode depth o = PropValue.ofValue <$> value depth o := rfl
  rw [Props.parse, whole_ok_iff, Props.decode, map_ok_iff]
  simp only [mapOf_ok_iff hdecode, Value.parse, whole_ok_iff]
  constructor
  · rintro ⟨⟨_, ⟨es, hes, rfl⟩, rfl⟩, hstop⟩
    exact ⟨es, ⟨hes, hstop⟩, rfl⟩
  · rintro ⟨es, ⟨hes, hstop⟩, rfl⟩
    exact ⟨⟨_, ⟨es, hes, rfl⟩, rfl⟩, hstop⟩

theorem mem_of_mem_ofList {α : Type} {pairs : List (String × α)} {e : String × α}
    (h : e ∈ (Catalog.ofList pairs).entries) : e ∈ pairs := by
  have hfind := Keyed.find?_key (Catalog.ofList pairs).nodup h
  rw [Catalog.entries_ofList, Keyed.find?_foldl_put, List.find?_nil, Option.or_none] at hfind
  exact List.mem_reverse.mp (List.mem_of_find?_eq_some hfind)

/-- Every property that was read comes from a value, whose numbers fit and for which there is
room. -/
theorem entry_of_parse (h : Props.parse source = .ok p) {e : String × PropValue}
    (he : e ∈ p.entries) :
    ∃ v, e.2 = PropValue.ofValue v ∧ (∀ n ∈ numbers v, Fits n) ∧ nesting v + 1 < depthLimit := by
  obtain ⟨es, hes, rfl⟩ := parse_props_iff.mp h
  obtain ⟨⟨key, v⟩, hmem, rfl⟩ := List.mem_map.mp (mem_of_mem_ofList he)
  have hnesting := nesting_lt (whole_ok_iff.mp hes).1 (by decide)
  have hle : nesting v ≤ memberNesting es := memberNesting_le.mp (Nat.le_refl _) _ hmem
  rw [nesting] at hnesting
  exact ⟨v, rfl, fun n hn => fits_of_parse hes n (mem_memberNumbers.mpr ⟨_, hmem, hn⟩), by omega⟩

/-- Any text of the object that properties are printed as reads as the properties. -/
theorem parse_of_value (h : Props.parse source = .ok p) {printed : String}
    (hprinted : Value.parse printed = .ok p.toValue) : Props.parse printed = .ok p := by
  refine parse_props_iff.mpr ⟨_, hprinted, ?_⟩
  have hentry : ∀ e ∈ p.entries, (e.1, PropValue.ofValue e.2.toValue) = e := by
    intro e he
    obtain ⟨v, hv, -⟩ := entry_of_parse h he
    rw [hv, ofValue_toValue, ← hv]
  have hentries : (p.entries.map fun e => (e.1, e.2.toValue)).map
      (fun e => (e.1, PropValue.ofValue e.2)) = p.entries := by
    rw [List.map_map]
    exact (List.map_congr_left hentry).trans p.entries.map_id
  rw [hentries, p.ofList_entries]

theorem parse_toValue (h : Props.parse source = .ok p) (hdoubles : DoublesReadBack p.toValue) :
    Value.parse p.toValue.compact = .ok p.toValue ∧
      Value.parse p.toValue.pretty = .ok p.toValue := by
  have hnumbers : ∀ n ∈ numbers p.toValue, ReadBack n := by
    intro n hn
    obtain ⟨_, hmem, hn'⟩ := mem_memberNumbers.mp hn
    obtain ⟨e, he, rfl⟩ := List.mem_map.mp hmem
    obtain ⟨v, hv, hfits, -⟩ := entry_of_parse h he
    refine readBack_of_fits (fits_ofValue hfits n (hv ▸ hn')) ?_
    rintro x rfl hx
    exact hdoubles x hn hx
  have hroom : memberNesting (p.entries.map fun e => (e.1, e.2.toValue)) ≤ depthLimit - 2 := by
    refine memberNesting_le.mpr ?_
    intro _ hmem
    obtain ⟨e, he, rfl⟩ := List.mem_map.mp hmem
    obtain ⟨v, hv, -, hlt⟩ := entry_of_parse h he
    have hle := nesting_ofValue v
    rw [← hv] at hle
    exact Nat.le_sub_of_add_le (Nat.le_trans (Nat.add_le_add_right hle 2) hlt)
  have hnesting : nesting p.toValue < depthLimit := by
    have hlimit : 2 ≤ depthLimit := by decide
    rw [Props.toValue, nesting]
    omega
  exact ⟨parse_compact hnumbers hnesting, parse_pretty hnumbers hnesting⟩

/-- Properties that were read are printed so that they read back as they were, and properties that
are printed alike are the same. -/
theorem reprinted_props (h : Props.parse source = .ok p) (hdoubles : DoublesReadBack p.toValue) :
    Props.parse p.toValue.compact = .ok p ∧ Props.parse p.toValue.pretty = .ok p ∧
      ∀ {other : String} {q : Props}, Props.parse other = .ok q → DoublesReadBack q.toValue →
        (q.toValue.compact = p.toValue.compact ↔ q = p) := by
  obtain ⟨hcompact, hpretty⟩ := parse_toValue h hdoubles
  refine ⟨parse_of_value h hcompact, parse_of_value h hpretty, fun {other q} hq hdoubles' => ?_⟩
  constructor
  · intro heq
    have hread := parse_of_value hq (parse_toValue hq hdoubles').1
    rw [heq, parse_of_value h hcompact] at hread
    exact (Except.ok.inj hread).symm
  · rintro rfl
    rfl

/-- Properties with a repeated key, with numbers in other forms than they are printed in, and with
values that are kept as they are. -/
def untidy : String :=
  "\x7b\"a\": 1, \"b\": [1, 25e-1, \x7b\"y\": null, \"x\": [], \"y\": \"\\u00e9\"\x7d], " ++
    "\"a\": -0, \"c\": true, \"d\": null, \"\\u0065\": \"t\\n\", \"f\": 18446744073709551615\x7d"

def tidy : String :=
  "\x7b\"a\":-0.0,\"b\":[1,2.5,\x7b\"x\":[],\"y\":\"é\"\x7d],\"c\":true,\"d\":null," ++
    "\"e\":\"t\\n\",\"f\":1.8446744073709552e+19\x7d"

theorem reprinted_props_untidy :
    ∃ p, Props.parse untidy = .ok p ∧ p.toValue.compact = tidy ∧ Props.parse tidy = .ok p := by
  have hread : (Props.parse untidy).toOption.map
      (fun p => (p.toValue.compact, numbers p.toValue)) =
      some (tidy, [.float ⟨0x8000000000000000⟩, .int 1, .float ⟨0x4004000000000000⟩,
        .float ⟨0x43F0000000000000⟩]) := by
    decide +kernel
  obtain ⟨p, hp, hprinted⟩ := Option.map_eq_some_iff.mp hread
  have hp := toOption_eq_some_iff.mp hp
  obtain ⟨hcompact, hnumbers⟩ := Prod.mk.inj hprinted
  have hdoubles : DoublesReadBack p.toValue := by
    intro x hx _
    rw [hnumbers] at hx
    have hcases : x = ⟨0x8000000000000000⟩ ∨ x = ⟨0x4004000000000000⟩ ∨
        x = ⟨0x43F0000000000000⟩ := by
      simpa using hx
    rcases hcases with rfl | rfl | rfl
    · exact toOption_eq_some_iff.mp (by decide +kernel)
    · exact toOption_eq_some_iff.mp (by decide +kernel)
    · exact toOption_eq_some_iff.mp (by decide +kernel)
  obtain ⟨hagain, -, -⟩ := reprinted_props hp hdoubles
  exact ⟨p, hp, hcompact, hcompact ▸ hagain⟩

end Screenwright.Proofs.Reprinting
