import Screenwright.Json.Outline

namespace Screenwright.Json
namespace Decode

/-- How many containers may be nested, plus one. -/
def depthLimit : Nat := 128

/-- The depth inside a container, or a fault when it is used up. -/
def enter (depth : Nat) (start : List Char) : Except Fault Nat :=
  if depth ≤ 1 then .error (.past .tooDeep start) else .ok (depth - 1)

/-- The fault of a list that is read to its end. -/
def listEnd : ListTail → Except Fault Unit
  | .closed _ | .cut => .ok ()
  | .noSeparator rest => .error (.past .expectedListEnd rest)
  | .endOfInput => .error (.atEnd .endOfList)
  | .danglingComma rest => .error (.past .trailingComma rest)
  | .endAfterComma => .error (.atEnd .endOfValue)

/-- The fault of a list that is skipped. -/
def listSkipped : ListTail → Except Fault Unit
  | .danglingComma rest => .error (.past .expectedValue rest)
  | tail => listEnd tail

def objectEnd : ObjectTail → Except Fault Unit
  | .closed _ | .cut => .ok ()
  | .noSeparator rest => .error (.past .expectedObjectEnd rest)
  | .endOfInput => .error (.atEnd .endOfObject)
  | .danglingComma rest => .error (.past .trailingComma rest)
  | .endAfterComma => .error (.atEnd .endOfValue)
  | .badKey rest => .error (.past .keyNotString rest)
  | .brokenKey strict _ => .error strict
  | .noColon key rest => key.name >>= fun _ => .error (.past .expectedColon rest)
  | .endAfterKey key => key.name >>= fun _ => .error (.atEnd .endOfObject)

def objectSkipped : ObjectTail → Except Fault Unit
  | .danglingComma rest => .error (.past .keyNotString rest)
  | .endAfterComma => .error (.atEnd .endOfObject)
  | .brokenKey _ loose => .error loose
  | .noColon _ rest => .error (.past .expectedColon rest)
  | .endAfterKey _ => .error (.atEnd .endOfObject)
  | tail => objectEnd tail

mutual

/-- Accepts any value without looking at it more closely than needed to find its end. It is not held
to a depth, to the ranges of numbers or to the pairing of surrogates. -/
def skip : Outline → Except Fault Unit
  | .scalar _ _ _ => .ok ()
  | .list _ items tail => do
    skipItems items
    listSkipped tail
  | .object _ members tail => do
    skipMembers members
    objectSkipped tail
  | .broken _ _ loose => .error loose

def skipItems : List Outline → Except Fault Unit
  | [] => .ok ()
  | o :: os => do
    skip o
    skipItems os

def skipMembers : List (Key × Outline) → Except Fault Unit
  | [] => .ok ()
  | (_, o) :: ms => do
    skip o
    skipMembers ms

end

def scalar : Scalar → Except Fault Value
  | .null => .ok .null
  | .bool b => .ok (.bool b)
  | .number read => .number <$> read
  | .string read => .string <$> read

mutual

def value (depth : Nat) : Outline → Except Fault Value
  | .scalar s _ _ => scalar s
  | .list start items tail => do
    let inner ← enter depth start
    let vs ← valueItems inner items
    listEnd tail
    return .array vs
  | .object start members tail => do
    let inner ← enter depth start
    let ms ← valueMembers inner members
    objectEnd tail
    return .object ms
  | .broken _ strict _ => .error strict

def valueItems (depth : Nat) : List Outline → Except Fault (List Value)
  | [] => .ok []
  | o :: os => do
    let v ← value depth o
    let vs ← valueItems depth os
    return v :: vs

def valueMembers (depth : Nat) : List (Key × Outline) → Except Fault (List (String × Value))
  | [] => .ok []
  | (k, o) :: ms => do
    let name ← k.name
    let v ← value depth o
    let vs ← valueMembers depth ms
    return (name, v) :: vs

end

def found : Scalar → Except Fault Found
  | .null => .ok .null
  | .bool b => .ok (.bool b)
  | .number read => .number <$> read
  | .string read => .string <$> read

def mismatch (expected : String) : Outline → Fault
  | .scalar s _ stop =>
    match found s with
    | .ok f => .here (.wrongType f expected) stop
    | .error fault => fault
  | .list start _ _ => .here (.wrongType .sequence expected) start
  | .object start _ _ => .here (.wrongType .map expected) start
  | .broken _ strict _ => strict

def bool : Outline → Except Fault Bool
  | .scalar (.bool b) _ _ => .ok b
  | o => .error (mismatch "a boolean" o)

/-- Reads a string, under the name that faults give it. -/
def text (expected : String) : Outline → Except Fault String
  | .scalar (.string read) _ _ => read
  | o => .error (mismatch expected o)

def string : Outline → Except Fault String := text "a string"

def integer (low high : Int) (expected : String) : Outline → Except Fault Int
  | .scalar (.number (.ok (.int n))) _ stop =>
    if low ≤ n ∧ n ≤ high then .ok n
    else .error (.here (.wrongInteger n expected) stop)
  | o => .error (mismatch expected o)

def signedWord : Outline → Except Fault Int :=
  integer (-0x8000000000000000) 0x7FFFFFFFFFFFFFFF "i64"

def unsignedWord : Outline → Except Fault Int := integer 0 0xFFFFFFFFFFFFFFFF "u64"

/-- Nothing for `null`, and else a value. -/
def nullable (decode : Outline → Except ε α) : Outline → Except ε (Option α)
  | .scalar .null _ _ => .ok none
  | o => some <$> decode o

def listOf (decode : Nat → Outline → Except Fault α) (depth : Nat) :
    Outline → Except Fault (List α)
  | .list start items tail => do
    let inner ← enter depth start
    let vs ← items.mapM (decode inner)
    listEnd tail
    return vs
  | o => .error (mismatch "a sequence" o)

/-- The members of an object in written order, repeated keys included. -/
def mapOf (decode : Nat → Outline → Except Fault α) (depth : Nat) :
    Outline → Except Fault (List (String × α))
  | .object start members tail => do
    let inner ← enter depth start
    let vs ← members.mapM fun (key, o) => do
      let name ← key.name
      return (name, ← decode inner o)
    objectEnd tail
    return vs
  | o => .error (mismatch "a map" o)

/-- Why a field was refused: a fault with its place, or a cause whose place is where the
record's reader stands after closing the record. -/
inductive Refusal where
  | placed (fault : Fault)
  | unplaced (cause : Cause)

instance : MonadLift (Except Fault) (Except Refusal) := ⟨fun r => r.mapError .placed⟩

/-- A record: each field's name, and what reading the field does to the record. -/
structure Record (σ : Type) where
  expected : String
  blank : σ
  fields : List (String × (Nat → Outline → σ → Except Refusal σ))

/-- Where an object's reader stands after it has tried to close the object. -/
def closeObject (rest : List Char) : List Char :=
  match skipBlank rest with
  | '\x7d' :: rest => rest
  | rest => rest

def closeList (rest : List Char) : List Char :=
  match skipBlank rest with
  | ']' :: rest => rest
  | ',' :: rest => skipBlank rest
  | rest => rest

def place (rest : List Char) : Except Refusal α → Except Fault α
  | .ok a => .ok a
  | .error (.placed fault) => .error fault
  | .error (.unplaced cause) => .error (.here cause rest)

namespace Record
variable {σ : Type}

def checkNew (r : Record σ) (seen : List String) (key : Key) : Except Fault String := do
  let name ← key.name
  if name ∈ seen ∧ r.fields.any (·.1 = name) then
    .error (.here (.duplicateField name) (closeObject key.stop))
  else return name

/-- Reads members one after the other; unknown ones are skipped. -/
def members (r : Record σ) (depth : Nat) (seen : List String) (state : σ) :
    List (Key × Outline) → Except Fault (List String × σ)
  | [] => .ok (seen, state)
  | (key, o) :: ms => do
    let name ← r.checkNew seen key
    match r.fields.find? (·.1 = name) with
    | some (_, field) =>
      let state ← place (closeObject o.stop) (field depth o state)
      members r depth (name :: seen) state ms
    | none =>
      skip o
      members r depth seen state ms

/-- Reads items as fields in order; gives the items that are left over. -/
def items (depth : Nat) (state : σ) :
    List (String × (Nat → Outline → σ → Except Refusal σ)) → List Outline →
      Except Fault (σ × Bool × List Outline)
  | [], os => .ok (state, true, os)
  | _ :: _, [] => .ok (state, false, [])
  | (_, field) :: fields, o :: os => do
    let state ← place (closeList o.stop) (field depth o state)
    items depth state fields os

def noMoreItems (extra : List Outline) (tail : ListTail) : Except Fault Unit :=
  match extra, tail with
  | o :: _, _ => .error (.past .trailingText o.start)
  | [], .noSeparator rest => .error (.past .trailingText rest)
  | [], .endAfterComma => .error (.atEnd .trailingText)
  | [], tail => listEnd tail

/-- Reads a record from an object, or from a list of its fields in order, of which the
last ones may be missing. -/
def decode (r : Record σ) (depth : Nat) : Outline → Except Fault σ
  | .object start ms tail => do
    let inner ← enter depth start
    let (seen, state) ← r.members inner [] r.blank ms
    match tail with
    | .noColon key _ | .endAfterKey key => discard (r.checkNew seen key)
    | _ => pure ()
    objectEnd tail
    return state
  | .list start os tail => do
    let inner ← enter depth start
    let (state, full, extra) ← items inner r.blank r.fields os
    if full then noMoreItems extra tail else listEnd tail
    return state
  | o => .error (mismatch r.expected o)

end Record

/-- Reads a whole text, behind which only blanks may follow. -/
def whole (decode : Nat → Outline → Except Fault α) (source : String) : Except Error α :=
  let outline := Outline.read source.toList
  let result := do
    let a ← decode depthLimit outline
    match skipBlank outline.stop with
    | [] => return a
    | rest => .error (.past .trailingText rest)
  result.mapError (Fault.locate source)

end Decode

def Value.parse (source : String) : Except Error Value := Decode.whole Decode.value source

end Screenwright.Json
