import Screenwright.Json.Fault
import Screenwright.Text.Digits

namespace Screenwright.Json

/-- A piece of a string literal: a character, or a 16-bit unit with the text behind it. -/
inductive Piece where
  | char (c : Char)
  | unit (n : Nat) (after : List Char)

/-- How a literal ends: at its quote, or at a fault. A reader of the value has gone one
byte further than one that skips it when it meets a control character. -/
inductive TextEnd where
  | closed (rest : List Char)
  | fault (strict loose : Fault)

/-- The character behind a backslash, where it stands for a single character. -/
def unescape? : Char → Option Char
  | '"' => some '"'
  | '\\' => some '\\'
  | '/' => some '/'
  | 'b' => some '\x08'
  | 'f' => some '\x0c'
  | 'n' => some '\n'
  | 'r' => some '\r'
  | 't' => some '\t'
  | _ => none

def hexUnit? (a b c d : Char) : Option Nat := do
  let a ← Text.hexValue? a
  let b ← Text.hexValue? b
  let c ← Text.hexValue? c
  let d ← Text.hexValue? d
  return ((a * 16 + b) * 16 + c) * 16 + d

def hexFault (rest : List Char) : Fault :=
  if byteLength rest < 4 then .atEnd .endOfString else ⟨.badEscape, byteLength rest - 4⟩

def TextEnd.both (f : Fault) : TextEnd := .fault f f

/-- Reads on to the closing quote and resolves single escapes. Surrogates are left to `decodeUnits`,
so every text whose value nobody asks for is accepted. -/
def scanText : List Char → List Piece × TextEnd
  | [] => ([], .both (.atEnd .endOfString))
  | '"' :: rest => ([], .closed rest)
  | '\\' :: [] => ([], .both (.atEnd .endOfString))
  | '\\' :: 'u' :: a :: b :: c :: d :: rest =>
    match hexUnit? a b c d with
    | some n =>
      let (pieces, stop) := scanText rest
      (.unit n rest :: pieces, stop)
    | none => ([], .both (hexFault (a :: b :: c :: d :: rest)))
  | '\\' :: e :: rest =>
    match unescape? e with
    | some c =>
      let (pieces, stop) := scanText rest
      (.char c :: pieces, stop)
    | none => ([], .both (if e = 'u' then hexFault rest else .past .badEscape (e :: rest)))
  | c :: rest =>
    if c.toNat < 32 then
      ([], .fault (.past .controlCharacter (c :: rest)) (.here .controlCharacter (c :: rest)))
    else
      let (pieces, stop) := scanText rest
      (.char c :: pieces, stop)

def isLeading (n : Nat) : Bool := 0xD800 ≤ n && n ≤ 0xDBFF

def isTrailing (n : Nat) : Bool := 0xDC00 ≤ n && n ≤ 0xDFFF

/-- The fault of a leading surrogate that no complete unit follows; `stop` is the fault the
literal ends with, if it ends with one. -/
def unpaired (after : List Char) (stop : TextEnd) : Fault :=
  match after with
  | [] | ['\\'] => .atEnd .endOfString
  | '\\' :: 'u' :: _ =>
    match stop with
    | .fault strict _ => strict
    | .closed _ => .past .unfinishedPair after
  | '\\' :: rest => .past .unfinishedPair rest
  | rest => .past .unfinishedPair rest

/-- The characters of a literal; two units that form a surrogate pair make one, and a lone surrogate
is refused. -/
def decodeUnits (stop : TextEnd) : List Piece → Except Fault (List Char)
  | [] =>
    match stop with
    | .closed _ => .ok []
    | .fault strict _ => .error strict
  | .char c :: rest => (c :: ·) <$> decodeUnits stop rest
  | .unit n after :: rest =>
    if isTrailing n then .error (.here .loneSurrogate after)
    else if isLeading n then
      match rest with
      | .unit m behind :: rest =>
        if isTrailing m then
          (Char.ofNat (0x10000 + (n - 0xD800) * 0x400 + (m - 0xDC00)) :: ·) <$>
            decodeUnits stop rest
        else .error (.here .loneSurrogate behind)
      | _ => .error (unpaired after stop)
    else (Char.ofNat n :: ·) <$> decodeUnits stop rest

def readText (cs : List Char) : Except Fault String :=
  let (pieces, stop) := scanText cs
  String.ofList <$> decodeUnits stop pieces

end Screenwright.Json
