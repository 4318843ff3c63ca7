import Screenwright.Files.Resolve
import Screenwright.Flutter.Source

namespace Screenwright.Export
open Files Screen Flutter

inductive ExportError where
  | invalidRequest (cause : Json.Error)
  | invalidConfig (cause : Json.Error)
  | invalidLevel (level : Int64)
  | invalidArchiveName (name : String)
  | project (cause : ProjectError)
  | source (cause : SourceError)
  | noTemplate (address : Address)
  | file (address : Address) (cause : FileError)
  | removal (address : Address) (cause : FileError)
  | listing (address : Address) (cause : FileError)
  | unsupportedLevel
  | duplicateEntry (name : String)
  | transmission (reason : String)
  | timedOut (seconds : UInt64)

def seconds (n : UInt64) : String := if n = 0 then "0ns" else toString n.toNat ++ "s"

namespace ExportError

/-- What a file error reads like where a directory could not be taken away. -/
def removalCause (address : Address) (cause : FileError) : String :=
  cause.message ++ " at path " ++ Visible.quote address.text

def message : ExportError → String
  | .invalidRequest cause => "invalid export request: " ++ cause.message
  | .invalidConfig cause => "invalid export config: " ++ cause.message
  | .invalidLevel level =>
    "compression level " ++ toString level.toInt ++ " is out of range 0-9"
  | .invalidArchiveName name => "invalid archive name '" ++ name ++ "'"
  | .project cause => cause.message
  | .source cause => cause.message
  | .noTemplate address => "template directory not found: " ++ address.text
  | .file address cause => "io error at " ++ address.text ++ ": " ++ cause.message
  | .removal address cause =>
    "io error at " ++ address.text ++ ": " ++ removalCause address cause
  | .listing address cause =>
    "walk error: IO error for operation on " ++ address.text ++ ": " ++ cause.message
  | .unsupportedLevel => "zip error: unsupported Zip archive: Unsupported compression level"
  | .duplicateEntry name => "zip error: invalid Zip archive: Duplicate filename: " ++ name
  | .transmission reason => "transmission failed: " ++ reason
  | .timedOut limit => "export exceeded its " ++ seconds limit ++ " time limit"

def cause? : ExportError → Option String
  | .invalidRequest cause | .invalidConfig cause => some cause.message
  | .project (.invalidDocument _ cause) => some cause.message
  | .file _ cause => some cause.message
  | _ => none

end ExportError

/-- All that is told of an export that failed. -/
structure ExportFailure where

def ExportFailure.message (_ : ExportFailure) : String := "export could not be completed"

end Screenwright.Export
