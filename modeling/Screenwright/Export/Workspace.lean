import Screenwright.Export.Error
import Screenwright.Files.Action

namespace Screenwright.Export
open Files

/-- A directory of its own for one export, which goes away with everything in it when the export has
settled. -/
structure Workspace where
  address : Address

namespace Workspace

def project (w : Workspace) : Address := w.address.joinText "project"

/-- Where the archive is written, whatever name it is handed out under. -/
def archive (w : Workspace) : Address := w.address.joinText "archive.zip"

def numbered (n : Nat) : String :=
  let digits := Nat.toDigits 10 n
  "fluttergen-" ++ String.ofList (List.replicate (6 - digits.length) '0' ++ digits)

/-- The first numbered name from a drawn number on that is not among some names. -/
def freshName (draw : Nat) (taken : List FileName) : String :=
  let names := (List.range (taken.length + 1)).map fun n => numbered (draw + n)
  (names.find? fun s => FileName.ofText s ∉ taken).getD (numbered draw)

/-- Makes a workspace under a root, which is made too if it is missing. The number that its
name is made from is drawn from outside. -/
def create (draw : Nat) (root : Address) : FileAction ExportError Workspace :=
  FileAction.mapError (.file root) do
    createDirectories root
    let place ← look true root
    let fresh := root.joinText (freshName draw ((← get).names place.location))
    createDirectory fresh
    return ⟨fresh⟩

def close (w : Workspace) : FileAction ExportError Unit :=
  FileAction.mapError (.removal w.address) (removeDirectory w.address)

/-- Takes a workspace away, unless it is gone. -/
def discard (w : Workspace) : FileAction Empty Unit := fun fs =>
  (.ok (), ((removeDirectory w.address).runOn fs).2)

/-- Runs an action that needs a workspace no longer, whether it fails or not. -/
def lastUse (w : Workspace) (act : FileAction ε α) : FileAction ε α := act.thenAlways w.discard

/-- Runs an action that needs a workspace no longer if it fails. -/
def keepOnSuccess (w : Workspace) (act : FileAction ε α) : FileAction ε α := fun fs =>
  match act.runOn fs with
  | (.ok a, fs) => (.ok a, fs)
  | (.error e, fs) => (.error e, (w.discard.runOn fs).2)

end Workspace
end Screenwright.Export
