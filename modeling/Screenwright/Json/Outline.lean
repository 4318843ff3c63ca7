import Screenwright.Json.Token

namespace Screenwright.Json

structure Key where
  name : Except Fault String
  stop : List Char

/-- How a list ends. One that is cut ends in its last item. -/
inductive ListTail where
  | closed (stop : List Char)
  | cut
  | noSeparator (rest : List Char)
  | endOfInput
  | danglingComma (rest : List Char)
  | endAfterComma

/-- How an object ends. One that is cut ends in the value of its last member. -/
inductive ObjectTail where
  | closed (stop : List Char)
  | cut
  | noSeparator (rest : List Char)
  | endOfInput
  | danglingComma (rest : List Char)
  | endAfterComma
  | badKey (rest : List Char)
  | brokenKey (strict loose : Fault)
  | noColon (key : Key) (rest : List Char)
  | endAfterKey (key : Key)

inductive Outline where
  | scalar (s : Scalar) (start stop : List Char)
  | list (start : List Char) (items : List Outline) (tail : ListTail)
  | object (start : List Char) (members : List (Key × Outline)) (tail : ObjectTail)
  | broken (start : List Char) (strict loose : Fault)

namespace Outline

def start : Outline → List Char
  | .scalar _ start _ | .list start _ _ | .object start _ _ | .broken start _ _ => start

/-- The text behind a complete value. -/
def stop : Outline → List Char
  | .scalar _ _ stop | .list _ _ (.closed stop) | .object _ _ (.closed stop) => stop
  | _ => []

/-- A container around the value that is read next. -/
inductive Frame where
  | list (start : List Char) (items : List Outline)
  | member (start : List Char) (members : List (Key × Outline)) (key : Key)

/-- What comes next: a value, the first item or a separator in a list, an item behind a
comma, the first key or a separator in an object, a key behind a comma, or a colon.
Items and members are kept with the last one first. -/
inductive Await where
  | value
  | list (start : List Char) (items : List Outline)
  | item (start : List Char) (items : List Outline)
  | object (start : List Char) (members : List (Key × Outline))
  | key (start : List Char) (members : List (Key × Outline))
  | colon (start : List Char) (members : List (Key × Outline)) (key : Key)

inductive Step where
  | next (frames : List Frame) (await : Await)
  | done (outline : Outline)

def complete (value : Outline) : List Frame → Step
  | [] => .done value
  | .list start items :: frames => .next frames (.list start (value :: items))
  | .member start members key :: frames => .next frames (.object start ((key, value) :: members))

/-- Ends all containers around a value that has a fault. -/
def cutOff (value : Outline) : List Frame → Outline
  | [] => value
  | .list start items :: frames => cutOff (.list start (value :: items).reverse .cut) frames
  | .member start members key :: frames =>
    cutOff (.object start ((key, value) :: members).reverse .cut) frames

def noValue (start : List Char) : Outline :=
  .broken start (.past .expectedValue start) (.past .expectedValue start)

def beginValue (frames : List Frame) (t : Token) : Step :=
  match t.lexeme with
  | .scalar s => complete (.scalar s t.start t.stop) frames
  | .mark .listOpen => .next frames (.list t.start [])
  | .mark .objectOpen => .next frames (.object t.start [])
  | .broken strict loose => .done (cutOff (.broken t.start strict loose) frames)
  | .mark _ | .stray => .done (cutOff (noValue t.start) frames)

def beginMember (frames : List Frame) (start : List Char) (members : List (Key × Outline))
    (t : Token) : Step :=
  match t.lexeme with
  | .scalar (.string read) => .next frames (.colon start members ⟨read, t.stop⟩)
  | .broken strict loose =>
    let tail := if t.start.head? = some '"' then .brokenKey strict loose else .badKey t.start
    .done (cutOff (.object start members.reverse tail) frames)
  | _ => .done (cutOff (.object start members.reverse (.badKey t.start)) frames)

def step (frames : List Frame) (await : Await) (t : Token) : Step :=
  match await with
  | .value => beginValue frames t
  | .list start items =>
    match t.lexeme, items with
    | .mark .listClose, items => complete (.list start items.reverse (.closed t.stop)) frames
    | _, [] => beginValue (.list start [] :: frames) t
    | .mark .comma, items => .next frames (.item start items)
    | _, items => .done (cutOff (.list start items.reverse (.noSeparator t.start)) frames)
  | .item start items =>
    match t.lexeme with
    | .mark .listClose =>
      .done (cutOff (.list start items.reverse (.danglingComma t.start)) frames)
    | _ => beginValue (.list start items :: frames) t
  | .object start members =>
    match t.lexeme, members with
    | .mark .objectClose, members =>
      complete (.object start members.reverse (.closed t.stop)) frames
    | _, [] => beginMember frames start [] t
    | .mark .comma, members => .next frames (.key start members)
    | _, members => .done (cutOff (.object start members.reverse (.noSeparator t.start)) frames)
  | .key start members =>
    match t.lexeme with
    | .mark .objectClose =>
      .done (cutOff (.object start members.reverse (.danglingComma t.start)) frames)
    | _ => beginMember frames start members t
  | .colon start members key =>
    match t.lexeme with
    | .mark .colon => .next (.member start members key :: frames) .value
    | _ => .done (cutOff (.object start members.reverse (.noColon key t.start)) frames)

/-- The outline of a text that ends here. -/
def finish (frames : List Frame) : Await → Outline
  | .value => cutOff (.broken [] (.atEnd .endOfValue) (.atEnd .endOfValue)) frames
  | .list start items => cutOff (.list start items.reverse .endOfInput) frames
  | .item start items => cutOff (.list start items.reverse .endAfterComma) frames
  | .object start members => cutOff (.object start members.reverse .endOfInput) frames
  | .key start members => cutOff (.object start members.reverse .endAfterComma) frames
  | .colon start members key => cutOff (.object start members.reverse (.endAfterKey key)) frames

/-- Takes tokens until the outermost value is complete or goes wrong. -/
def build (frames : List Frame) (await : Await) : List Token → Outline
  | [] => finish frames await
  | t :: ts =>
    match step frames await t with
    | .next frames await => build frames await ts
    | .done outline => outline

/-- The outline of the value that a text begins with. Text that goes wrong has an outline too, which
says how the innermost container ends, so that every reader can report the fault that it meets
first. -/
def read (cs : List Char) : Outline := build [] .value (tokens cs)

end Outline
end Screenwright.Json
