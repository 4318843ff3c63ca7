import Screenwright.Export.Request
import Screenwright.Proofs.Documents
import Screenwright.Proofs.Printing

namespace Screenwright.Proofs.Requests
open Json Decode Export Canonical Values Printing Outcomes

/-- The request that a value stands for. -/
def requestOf? (v : Value) : Option Request :=
  (membersOf? some v).map fun es => .ofList (es.map fun e => (e.1, Request.documentOf e.2))

theorem follows_value : Follows value some := by
  intro depth o v h _
  rw [h]
  rfl

theorem follows_request : Follows Request.decode requestOf? := by
  intro depth o v h hv
  have hread : Request.decode depth o = mapOf value depth o >>= fun es =>
      .ok (.ofList (es.map fun e => (e.1, Request.documentOf e.2))) := rfl
  rw [hread, toOption_bind, follows_value.mapOf h hv, requestOf?, Option.map_eq_bind]
  rfl

theorem parse_request {source : String} {v : Value} (h : Value.parse source = .ok v)
    (hv : Distinct v) : (Request.parse source).toOption = requestOf? v := by
  rw [Request.parse, toOption_mapError]
  exact follows_request.whole h hv

theorem membersOf?_some (es : Members) : membersOf? some (.object es) = some es := by
  simp only [membersOf?, Option.map_some]
  induction es with
  | nil => rfl
  | cons e es ih => simp [List.mapM_cons, ih]

/-- Every document of a request is kept as a string, so that it comes back as it was. -/
theorem requestOf?_toValue (r : Request) : requestOf? r.toValue = some r := by
  have hentries : (r.entries.map fun e => (e.1, Value.string e.2)).map
      (fun e => (e.1, Request.documentOf e.2)) = r.entries := by
    simp [Function.comp_def, Request.documentOf]
  rw [Request.toValue, requestOf?, membersOf?_some, Option.map_some, hentries, r.ofList_entries]

theorem distinct_toValue (r : Request) : Distinct r.toValue := by
  have hkeys : (r.entries.map fun e => (e.1, Value.string e.2)).map Prod.fst =
      r.entries.map Prod.fst := by
    simp [Function.comp_def]
  refine ⟨hkeys ▸ r.nodup, distinctMembers_iff.mpr ?_⟩
  intro e he
  obtain ⟨entry, _, rfl⟩ := List.mem_map.mp he
  trivial

theorem numbers_toValue (r : Request) : numbers r.toValue = [] := by
  simp only [Request.toValue, numbers]
  induction r.entries with
  | nil => rfl
  | cons e es ih => simp [memberNumbers, numbers, ih]

theorem nesting_toValue (r : Request) : nesting r.toValue < depthLimit := by
  have hflat : memberNesting (r.entries.map fun e => (e.1, Value.string e.2)) ≤ 0 := by
    refine memberNesting_le.mpr ?_
    intro e he
    obtain ⟨entry, _, rfl⟩ := List.mem_map.mp he
    exact Nat.le_refl _
  have hlimit : (1 : Nat) < depthLimit := by decide
  rw [Request.toValue, nesting]
  omega

/-- A printed request reads back as it was, whether it is printed on one line or over several. -/
theorem parse_printed (r : Request) :
    Request.parse r.toValue.compact = .ok r ∧ Request.parse r.toValue.pretty = .ok r := by
  have hnumbers : ∀ n ∈ numbers r.toValue, ReadBack n := by
    intro n hn
    rw [numbers_toValue] at hn
    cases hn
  have hread (source : String) (hsource : Value.parse source = .ok r.toValue) :
      Request.parse source = .ok r := by
    rw [← toOption_eq_some_iff, parse_request hsource (distinct_toValue r), requestOf?_toValue]
  constructor
  · exact hread _ (parse_compact hnumbers (nesting_toValue r))
  · exact hread _ (parse_pretty hnumbers (nesting_toValue r))

end Screenwright.Proofs.Requests
