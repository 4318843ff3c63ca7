import Screenwright.Design.Tree

namespace Screenwright.Design
open Json Decode

/-- The tag of a node's type: a string, or an object whose only `resolvedName` is one. -/
def typeTag? : Value → Option String
  | .string tag => some tag
  | .object members =>
    match members.filter (·.1 = "resolvedName") with
    | [(_, .string tag)] => some tag
    | _ => none
  | _ => none

def decodeKind (depth : Nat) (o : Outline) : Except Refusal Kind := do
  let v ← value depth o
  match typeTag? v with
  | some tag => return .ofTag tag
  | none => throw (.unplaced (.noVariant "RawType"))

/-- A field that may be `null`. -/
def field (decode : Nat → Outline → Except Fault α) (set : Option α → Node → Node)
    (depth : Nat) (o : Outline) (n : Node) : Except Refusal Node := do
  let a ← (nullable (decode depth) o : Except Fault (Option α))
  return set a n

def blankNode : Node := ⟨"", .unknown "", false, ∅, [], none, none⟩

/-- The fields of a node, in the order in which a list has them; its id is not one of them. A
missing field counts as `null`. -/
def nodeRecord : Record Node where
  expected := "struct RawNode"
  blank := blankNode
  fields := [
    ("type", fun depth o n => do
      let kind ← nullable (decodeKind depth) o
      return { n with kind := kind.getD (.unknown "") }),
    ("isCanvas", field (fun _ => bool) fun a n => { n with isCanvas := a.getD false }),
    ("props", field Props.decode fun a n => { n with props := a.getD ∅ }),
    ("displayName", field (fun _ => string) fun a n => { n with displayName := a }),
    ("nodes", field (listOf fun _ => string) fun a n => { n with children := a.getD [] }),
    ("parent", field (fun _ => string) fun a n => { n with parent := a })]

def decodeTree (depth : Nat) (o : Outline) : Except Fault DesignTree := do
  let members ← mapOf nodeRecord.decode depth o
  return .ofList (members.map fun (id, node) => { node with id := id })

/-- Reads a design document: an object of nodes by id. -/
def DesignTree.parse (source : String) : Except Error DesignTree := whole decodeTree source

end Screenwright.Design
