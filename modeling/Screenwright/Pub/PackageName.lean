import Screenwright.Text.Blank
import Screenwright.Text.Casing
import Screenwright.Text.Cluster

namespace Screenwright.Pub
open Casing

/-- What divides words without belonging to one. -/
def isDelimiter (cluster : List Char) : Bool :=
  cluster = ['_'] || cluster = ['-'] || cluster = [' ']

/-- Whether a word ends between `a` and `b`, in front of `c`: where a capital follows a small
letter, where digits and letters meet, and before the last capital of a run of them that
a small letter follows. -/
def divides (a b : List Char) (c : Option (List Char)) : Bool :=
  (isLower a && isUpper b) || (isUpper a && isNumber b) || (isNumber a && isUpper b) ||
    (isNumber a && isLower b) || (isLower a && isNumber b) ||
    (isUpper a && isUpper b && c.any isLower)

/-- Cuts clusters into words; between neighbouring delimiters lies an empty one. -/
def splitWords : List (List Char) → List (List Char)
  | [] => [[]]
  | [a] => if isDelimiter a then [[], []] else [a]
  | a :: b :: rest =>
    let words := splitWords (b :: rest)
    if isDelimiter a then [] :: words
    else if divides a b rest.head? then a :: words
    else match words with
      | [] => [a]
      | w :: ws => (a ++ w) :: ws

def isNameChar (c : Char) : Bool := Text.isDigit c || ('a' ≤ c && c ≤ 'z') || c = '_'

/-- The words of a title in lower case, with underscores between them. -/
def snake (title : String) : List Char :=
  let words := (splitWords (Cluster.clusters title.toList)).filter (!·.isEmpty)
  List.intercalate ['_'] (words.map (·.map lowerToAscii))

/-- The package name of a title; one that would start with a digit gets a word in front. -/
def packageName (title : String) : String :=
  match Text.stripWhile (· = '_') ((snake title).filter isNameChar) with
  | [] => "flutter_project"
  | c :: cs =>
    if Text.isDigit c then "app_" ++ String.ofList (c :: cs) else String.ofList (c :: cs)

end Screenwright.Pub
