import Screenwright.Export.Config
import Screenwright.Proofs.Printing
import Screenwright.Proofs.Records

namespace Screenwright.Proofs.Settings
open Json Value Decode Export Canonical Numerals Values Records Printing Outcomes

/-- A value that is neither a list nor an object. -/
def Single : Value → Prop
  | .array _ | .object _ => False
  | _ => True

def HasSingle (depth : Nat) (o : Outline) (v : Value) : Prop := value depth o = .ok v ∧ Single v

def intOf? (low high : Int) : Value → Option Int
  | .number (.int n) => if low ≤ n ∧ n ≤ high then some n else none
  | _ => none

def isolationOf? : Value → Option Isolation
  | .string s => Isolation.all.find? (·.name = s)
  | _ => none

theorem HasSingle.scalar {depth : Nat} {o : Outline} {v : Value} (h : HasSingle depth o v) :
    ∃ s start stop, o = .scalar s start stop ∧ Decode.scalar s = .ok v := by
  obtain ⟨hv, hsingle⟩ := h
  rcases value_cases hv with hscalar | ⟨_, _, _, _, _, rfl, _⟩ | ⟨_, _, _, _, _, rfl, _⟩
  · exact hscalar
  · cases hsingle
  · cases hsingle

theorem Single.distinct {v : Value} (h : Single v) : Distinct v := by
  cases v with
  | array | object => cases h
  | _ => trivial

theorem follows_integer (low high : Int) (expected : String) :
    Follows (fun _ => integer low high expected) (intOf? low high) := by
  intro depth o v h _
  rcases value_cases h with ⟨s, start, stop, rfl, hs⟩ | ⟨_, _, _, _, rfl, rfl, _⟩ |
    ⟨_, _, _, _, rfl, rfl, _⟩
  · rcases scalar_cases hs with ⟨rfl, rfl⟩ | ⟨_, rfl, rfl⟩ | ⟨n, rfl, rfl⟩ | ⟨_, rfl, rfl⟩
    · rfl
    · rfl
    · cases n with
      | int n =>
        simp only [integer, intOf?]
        split <;> rfl
      | float x => rfl
    · rfl
  · rfl
  · rfl

theorem toOption_isolation (depth : Nat) (o : Outline) (v : Value) (h : HasSingle depth o v) :
    (Isolation.decode depth o).toOption = isolationOf? v := by
  obtain ⟨s, start, stop, rfl, hs⟩ := h.scalar
  rcases scalar_cases hs with ⟨rfl, rfl⟩ | ⟨_, rfl, rfl⟩ | ⟨_, rfl, rfl⟩ | ⟨name, rfl, rfl⟩
  · rfl
  · rfl
  · rfl
  · change (Isolation.ofName name stop).toOption = _
    rw [Isolation.ofName, isolationOf?]
    cases Isolation.all.find? (·.name = name) <;> rfl

/-- What the fields of the settings do to them. -/
def configChanges : Changes Value Config := [
  ("project_name", fun v => (stringOf? v).map fun a c => { c with projectName := a }),
  ("archive_name", fun v => (stringOf? v).map fun a c => { c with archiveName := a }),
  ("work_root", fun v => (nullableOf? stringOf? v).map fun a c => { c with workRoot := a }),
  ("compression_level", fun v => (intOf? (-0x8000000000000000) 0x7FFFFFFFFFFFFFFF v).map fun a c =>
    { c with level := .ofInt a }),
  ("isolation", fun v => (isolationOf? v).map fun a c => { c with isolation := a }),
  ("timeout_secs", fun v => (nullableOf? (intOf? 0 0xFFFFFFFFFFFFFFFF) v).map fun a c =>
    { c with timeout := a.map fun n => .ofNat n.toNat })]

theorem makes_single {α : Type} {decode : Nat → Outline → Except Fault α}
    {read : Value → Option α} (hread : Follows decode read) (name : String)
    (set : α → Config → Config) :
    Makes HasSingle (name, Config.field decode set) (name, fun v => (read v).map set) :=
  makes_map (fun _ _ _ h => hread h.1 h.2.distinct) name set

theorem record_makes : List.Forall₂ (Makes HasSingle) Config.record.fields configChanges := by
  have htext : Follows (fun _ => text "path string") stringOf? := by
    intro depth o v h hv
    rw [← follows_string h hv]
    cases o with
    | scalar s start stop => cases s <;> rfl
    | _ => rfl
  refine .cons (makes_single follows_string _ _) ?_
  refine .cons (makes_single follows_string _ _) ?_
  refine .cons (makes_single htext.nullable _ _) ?_
  refine .cons (makes_single (follows_integer _ _ _) _ _) ?_
  refine .cons (makes_map toOption_isolation _ _) ?_
  exact .cons (makes_single (Follows.nullable (follows_integer _ _ _)) _ _) .nil

theorem independent_configChanges : configChanges.Pairwise Independent := by
  simp only [configChanges, List.pairwise_cons, List.forall_mem_cons, List.not_mem_nil,
    false_imp_iff, implies_true, List.Pairwise.nil, and_true]
  and_intros <;> exact independent_map _ _ fun _ _ _ => rfl

/-- What a text that holds an object without parts is as settings. -/
theorem parse_settings {source : String} {es : Members} (h : Value.parse source = .ok (.object es))
    (hsingle : ∀ e ∈ es, Single e.2) (hkeys : (es.map Prod.fst).Nodup) :
    (Config.parse source).toOption = es.foldlM (change configChanges) {} := by
  obtain ⟨hvalue, hstop⟩ := whole_ok_iff.mp h
  obtain ⟨start, members, tail, ho, hd, htail, hmembers⟩ := object_cases hvalue
  have hholds : List.Forall₂ (Holds HasSingle configChanges (depthLimit - 1)) members es :=
    forall₂_imp_mem hmembers fun m e he hm =>
      ⟨hm.1, skip_of_value hm.2, fun _ => ⟨hm.2, hsingle e he⟩⟩
  rw [Config.parse, toOption_mapError, toOption_whole hstop, ho]
  exact toOption_decode_object record_makes hd htail hholds (once_of_nodup hkeys)

/-- The settings with the fields of some names at their defaults. -/
def reset (names : List String) (c : Config) : Config where
  projectName := if "project_name" ∈ names then ({} : Config).projectName else c.projectName
  archiveName := if "archive_name" ∈ names then ({} : Config).archiveName else c.archiveName
  workRoot := if "work_root" ∈ names then ({} : Config).workRoot else c.workRoot
  level := if "compression_level" ∈ names then ({} : Config).level else c.level
  isolation := if "isolation" ∈ names then ({} : Config).isolation else c.isolation
  timeout := if "timeout_secs" ∈ names then ({} : Config).timeout else c.timeout

def membersOf : Value → Members
  | .object es => es
  | _ => []

variable {c : Config} {deleted : List String}

theorem reset_nil : reset [] c = c := by simp [reset]

theorem nodup_members : ((membersOf c.toValue).map Prod.fst).Nodup := by
  have hnames : (membersOf c.toValue).map Prod.fst = configChanges.map Prod.fst := rfl
  rw [hnames]
  decide

theorem fits_level (c : Config) : Fits (.int c.level.toInt) := by
  have hlow := c.level.le_toInt
  have hhigh := c.level.toInt_lt
  constructor <;> omega

theorem fits_timeout (t : UInt64) : Fits (.int t.toNat) := by
  have hhigh := t.toNat_lt
  constructor <;> omega

/-- Each member is a value without parts, and its number is printed as it is read. -/
theorem members_printable : ∀ e ∈ membersOf c.toValue,
    Single e.2 ∧ ∀ n ∈ numbers e.2, ReadBack n := by
  have hlevel := readBack_int (fits_level c)
  simp only [Config.toValue, membersOf, List.forall_mem_cons]
  refine ⟨⟨trivial, ?_⟩, ⟨trivial, ?_⟩, ?workRoot, ⟨trivial, ?_⟩, ⟨trivial, ?_⟩, ?timeout, ?_⟩
  case workRoot => cases c.workRoot <;> simp [Single, numbers]
  case timeout => cases c.timeout <;> simp [Single, numbers, readBack_int (fits_timeout _)]
  all_goals simp [numbers, hlevel]

def keep (deleted : List String) (s : Config) (e : String × Value) : Option Config :=
  if e.1 ∈ deleted then some s else change configChanges s e

section
variable (s : Config)

theorem keep_projectName : keep deleted s ("project_name", .string c.projectName) =
    some { s with projectName :=
      if "project_name" ∈ deleted then s.projectName else c.projectName } := by
  unfold keep
  split <;> rfl

theorem keep_archiveName : keep deleted s ("archive_name", .string c.archiveName) =
    some { s with archiveName :=
      if "archive_name" ∈ deleted then s.archiveName else c.archiveName } := by
  unfold keep
  split <;> rfl

theorem keep_workRoot :
    keep deleted s ("work_root", (c.workRoot.map Value.string).getD .null) =
      some { s with workRoot := if "work_root" ∈ deleted then s.workRoot else c.workRoot } := by
  unfold keep
  split
  · rfl
  · cases c.workRoot <;> rfl

theorem keep_level : keep deleted s ("compression_level", .number (.int c.level.toInt)) =
    some { s with level := if "compression_level" ∈ deleted then s.level else c.level } := by
  have hlow := c.level.le_toInt
  have hhigh := c.level.toInt_lt
  have hread : intOf? (-0x8000000000000000) 0x7FFFFFFFFFFFFFFF (.number (.int c.level.toInt)) =
      some c.level.toInt := if_pos (by omega)
  unfold keep
  split
  · rfl
  · change ((intOf? _ _ _).map _).map _ = _
    rw [hread, Option.map_some, Option.map_some, Int64.ofInt_toInt]

theorem keep_isolation : keep deleted s ("isolation", .string c.isolation.name) =
    some { s with isolation := if "isolation" ∈ deleted then s.isolation else c.isolation } := by
  unfold keep
  split
  · rfl
  · cases c.isolation <;> rfl

theorem keep_timeout :
    keep deleted s
        ("timeout_secs", (c.timeout.map fun n => Value.number (.int n.toNat)).getD .null) =
      some { s with timeout := if "timeout_secs" ∈ deleted then s.timeout else c.timeout } := by
  unfold keep
  split
  · rfl
  · cases c.timeout with
    | none => rfl
    | some t =>
      have hhigh := t.toNat_lt
      have hread : intOf? 0 0xFFFFFFFFFFFFFFFF (.number (.int t.toNat)) = some (t.toNat : Int) :=
        if_pos (by omega)
      change (((intOf? _ _ _).map some).map _).map _ = _
      simp [hread]

end

/-- The members that are not left out set their fields, one after the other. -/
theorem foldlM_kept : ((membersOf c.toValue).filter fun e => e.1 ∉ deleted).foldlM
    (change configChanges) {} = some (reset deleted c) := by
  have hkeep : (fun s e => if decide (e.1 ∉ deleted) = true then change configChanges s e
      else pure s) = keep deleted := by
    funext s e
    by_cases h : e.1 ∈ deleted <;> simp [keep, h]
  rw [List.foldlM_filter, hkeep]
  simp only [membersOf, Config.toValue, List.foldlM_cons, List.foldlM_nil, keep_projectName,
    keep_archiveName, keep_workRoot, keep_level, keep_isolation, keep_timeout,
    Option.bind_eq_bind, Option.bind_some]
  rfl

theorem parse_rest {rest : Members}
    (hrest : rest.Perm ((membersOf c.toValue).filter fun e => e.1 ∉ deleted)) {source : String}
    (hsource : Value.parse source = .ok (.object rest)) :
    Config.parse source = .ok (reset deleted c) := by
  have hsingle : ∀ e ∈ rest, Single e.2 := fun e he =>
    (members_printable e (List.mem_of_mem_filter (hrest.mem_iff.mp he))).1
  have hkeys : (rest.map Prod.fst).Nodup := by
    rw [(hrest.map Prod.fst).nodup_iff]
    exact nodup_members.sublist (List.filter_sublist.map _)
  rw [← toOption_eq_some_iff, parse_settings hsource hsingle hkeys,
    foldlM_perm independent_configChanges hrest (once_of_nodup hkeys), foldlM_kept]

/-- What is left of the object is printed so that it reads back. -/
theorem parse_object {rest : Members} (hrest : rest ⊆ membersOf c.toValue) :
    Value.parse (Value.object rest).compact = .ok (.object rest) ∧
      Value.parse (Value.object rest).pretty = .ok (.object rest) := by
  have hnumbers : ∀ n ∈ numbers (.object rest), ReadBack n := by
    intro n hn
    obtain ⟨e, he, hn⟩ := mem_memberNumbers.mp hn
    exact (members_printable e (hrest he)).2 n hn
  have hnesting : nesting (.object rest) < depthLimit := by
    have hflat : memberNesting rest ≤ 0 := memberNesting_le.mpr fun e he => by
      have hsingle := (members_printable e (hrest he)).1
      cases hv : e.2 with
      | array | object => rw [hv] at hsingle; cases hsingle
      | _ => exact Nat.le_refl _
    have hlimit : 1 < depthLimit := by decide
    rw [nesting]
    omega
  exact ⟨parse_compact hnumbers hnesting, parse_pretty hnumbers hnesting⟩

/-- Printed settings read back as they were. If members are taken out of their object and the others
put in any order, the fields that are gone are at their defaults and the others as they were. -/
theorem parse_printed_settings (c : Config) :
    (Config.parse c.toValue.compact = .ok c ∧ Config.parse c.toValue.pretty = .ok c) ∧
    ∀ (deleted : List String) (rest : Members),
      rest.Perm ((membersOf c.toValue).filter fun e => e.1 ∉ deleted) →
        Config.parse (Value.object rest).compact = .ok (reset deleted c) ∧
        Config.parse (Value.object rest).pretty = .ok (reset deleted c) ∧
        ∀ source, Value.parse source = .ok (.object rest) →
          Config.parse source = .ok (reset deleted c) := by
  have hrest (deleted : List String) (rest : Members)
      (h : rest.Perm ((membersOf c.toValue).filter fun e => e.1 ∉ deleted)) :
      Config.parse (Value.object rest).compact = .ok (reset deleted c) ∧
        Config.parse (Value.object rest).pretty = .ok (reset deleted c) ∧
        ∀ source, Value.parse source = .ok (.object rest) →
          Config.parse source = .ok (reset deleted c) := by
    have hsubset : rest ⊆ membersOf c.toValue := fun e he =>
      List.mem_of_mem_filter (h.mem_iff.mp he)
    obtain ⟨hcompact, hpretty⟩ := parse_object hsubset
    exact ⟨parse_rest h hcompact, parse_rest h hpretty, fun _ => parse_rest h⟩
  obtain ⟨hcompact, hpretty, -⟩ := hrest [] (membersOf c.toValue) (by simp)
  rw [reset_nil] at hcompact hpretty
  exact ⟨⟨hcompact, hpretty⟩, hrest⟩

/-- Settings at both ends of the ranges of their numbers, with escapes in their texts. -/
def extreme : Config where
  projectName := "say \"é\"\n"
  archiveName := "a\\b.zip"
  workRoot := some "/tmp/\t"
  level := Int64.minValue
  isolation := .skipInvalid
  timeout := some 18446744073709551615

theorem parse_printed_settings_extreme :
    Config.parse extreme.toValue.compact = .ok extreme ∧
    Config.parse ("\x7b\"timeout_secs\": 18446744073709551615, \"project_name\": " ++
        "\"say \\u0022\\u00e9\\u0022\\n\", \"compression_level\": -9223372036854775808\x7d") =
      .ok { extreme with
        archiveName := "flutter_project.zip"
        workRoot := none
        isolation := .abortAll } := by
  obtain ⟨hprinted, hrest⟩ := parse_printed_settings extreme
  obtain ⟨_, _, hread⟩ := hrest ["archive_name", "work_root", "isolation"]
    [("timeout_secs", .number (.int 18446744073709551615)),
      ("project_name", .string "say \"é\"\n"),
      ("compression_level", .number (.int (-9223372036854775808)))] (by decide +kernel)
  exact ⟨hprinted.1, hread _ (toOption_eq_some_iff.mp (by decide +kernel))⟩

end Screenwright.Proofs.Settings
