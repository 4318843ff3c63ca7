import Screenwright.Json.Value
import Screenwright.Screen.Project

namespace Screenwright.Export
open Json Screen

structure ScreenEntry where
  label : String
  name : Name

/-- A screen that could not have the name of its label, with both file names. -/
structure RenamedScreen where
  label : String
  wanted : String
  renamed : String

structure SkippedScreen where
  label : String
  reason : String

structure Report where
  screens : List ScreenEntry
  homeClass : String
  renamed : List RenamedScreen
  skipped : List SkippedScreen
  archiveEntries : Nat

def SkippedScreen.of (e : ProjectError) : SkippedScreen := ⟨e.label?.getD "", e.message⟩

def Report.toValue (r : Report) : Value :=
  .object [
    ("screens", .array (r.screens.map fun s => .object [
      ("label", .string s.label), ("file_name", .string s.name.fileName),
      ("class_name", .string s.name.className), ("route_path", .string s.name.routePath)])),
    ("home_class", .string r.homeClass),
    ("renamed", .array (r.renamed.map fun s => .object [
      ("label", .string s.label), ("from", .string s.wanted), ("to", .string s.renamed)])),
    ("skipped", .array (r.skipped.map fun s => .object [
      ("label", .string s.label), ("reason", .string s.reason)])),
    ("archive_entries", .number (.int r.archiveEntries))]

end Screenwright.Export
