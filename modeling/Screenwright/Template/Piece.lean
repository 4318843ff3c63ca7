import Screenwright.Text.Digits

namespace Screenwright.Template

/-- An argument of a helper: the name of a variable, or a text in quotes. -/
inductive Argument where
  | named (name : String)
  | literal (text : String)

inductive Content where
  | plain (text : String)
  | field (name : String)
  | call (helper : String) (args : List Argument)

/-- A piece of a template: text, or a tag in two or three braces. It remembers how it was written,
so that a fault can name its place. -/
structure Piece where
  written : String
  content : Content

namespace Piece

def plain (text : String) : Piece := ⟨text, .plain text⟩

def field (name : String) : Piece := ⟨"\x7b\x7b" ++ name ++ "\x7d\x7d", .field name⟩

def call (helper argument : String) : Piece :=
  ⟨"\x7b\x7b" ++ helper ++ " " ++ argument ++ "\x7d\x7d", .call helper [.named argument]⟩

end Piece

/-- What turns an argument into text. -/
inductive Helper where
  | dartString
  | packageName
deriving DecidableEq

def Helper.ofName? : String → Option Helper
  | "dart_string" => some .dartString
  | "package_name" => some .packageName
  | _ => none

/-- Characters of names; all but ASCII ones are among them. -/
def isNameChar (c : Char) : Bool :=
  Text.isDigit c || ('a' ≤ c && c ≤ 'z') || ('A' ≤ c && c ≤ 'Z') ||
    c = '_' || c = '-' || c = '$' || 128 ≤ c.toNat

def isTagBlank (c : Char) : Bool := c = ' ' || c = '\t' || c = '\n' || c = '\r'

/-- The meaning of the words in a tag. A lone name is a variable unless a helper has it. -/
def contentOf? : List Argument → Option Content
  | [.named name] =>
    if (Helper.ofName? name).isSome then some (.call name []) else some (.field name)
  | .named name :: args => some (.call name args)
  | _ => none

/-- The words of a tag up to its closing braces, and the text behind them. Each word takes
at least one character, so a bound on their number is at hand. -/
def readWords (closing : List Char) : Nat → List Char → Option (List Argument × List Char)
  | 0, _ => none
  | n + 1, cs =>
    match cs.dropWhile isTagBlank with
    | [] => none
    | c :: rest =>
      if closing.isPrefixOf (c :: rest) then some ([], (c :: rest).drop closing.length)
      else if c = '"' ∨ c = '\'' then
        match rest.dropWhile (· ≠ c) with
        | [] => none
        | _ :: after => do
          let (words, behind) ← readWords closing n after
          return (.literal (String.ofList (rest.takeWhile (· ≠ c))) :: words, behind)
      else if isNameChar c then do
        let (words, behind) ← readWords closing n (rest.dropWhile isNameChar)
        return (.named (String.ofList (c :: rest.takeWhile isNameChar)) :: words, behind)
      else none

/-- The text in front of the first two opening braces, and what follows it. -/
def cutText : List Char → List Char × List Char
  | [] => ([], [])
  | c :: rest =>
    if c = '\x7b' ∧ rest.head? = some '\x7b' then ([], c :: rest)
    else
      let (text, behind) := cutText rest
      (c :: text, behind)

def closingOf (opened : List Char) : List Char :=
  if ['\x7b', '\x7b', '\x7b'].isPrefixOf opened then ['\x7d', '\x7d', '\x7d'] else ['\x7d', '\x7d']

/-- Reads the pieces of a text; each takes at least one character of it. -/
def readPieces : Nat → List Char → Option (List Piece)
  | 0, _ => some []
  | n + 1, cs =>
    let (text, opened) := cutText cs
    let plain := if text.isEmpty then [] else [Piece.plain (String.ofList text)]
    if opened.isEmpty then some plain
    else do
      let closing := closingOf opened
      let (words, behind) ← readWords closing opened.length (opened.drop closing.length)
      let content ← contentOf? words
      let written := String.ofList (opened.take (opened.length - behind.length))
      let pieces ← readPieces n behind
      return plain ++ ⟨written, content⟩ :: pieces

/-- The pieces of a template; a tag that does not end or has no name makes none. -/
def parse (source : String) : Option (List Piece) :=
  readPieces (source.toList.length + 1) source.toList

end Screenwright.Template
