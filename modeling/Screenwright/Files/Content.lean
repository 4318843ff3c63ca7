namespace Screenwright

/-- How an archive keeps an entry. -/
inductive Archive.Method where
  | stored
  | deflated
deriving DecidableEq

/-- An entry of an archive; a directory has no content. -/
structure Archive.Entry (γ : Type) where
  name : String
  method : Method
  content : Option γ

inductive Content where
  | bytes (b : ByteArray)
  | archive (entries : List (Archive.Entry Content))

namespace Content

def empty : Content := .bytes .empty

def ofText (s : String) : Content := .bytes s.toUTF8

def text? : Content → Option String
  | .bytes b => String.fromUTF8? b
  | .archive _ => none

end Content

/-- An archive as the list of its entries; how it is written out does not matter to what is done
with it here. -/
abbrev Archive := List (Archive.Entry Content)

end Screenwright
