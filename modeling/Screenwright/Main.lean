import Screenwright.Disk

namespace Screenwright.CommandLine
open Files

partial def readAll (input : IO.FS.Stream) (bytes : ByteArray) : IO ByteArray := do
  let more ← input.read 65536
  if more.isEmpty then return bytes else readAll input (bytes ++ more)

/-- The surroundings of a command; the standard input is read only by a command that needs it. -/
def surroundings (command : Command) : IO Surroundings := do
  let base := ((← IO.currentDir).components.filter (!·.isEmpty)).map FileName.ofText
  let temporary := (← IO.getEnv "TMPDIR").getD "/tmp"
  let input ← if command.readsInput then readAll (← IO.getStdin) .empty else pure .empty
  let draw ← IO.rand 0 999999
  return { base, temporary := .ofText base temporary, input, draw }

/-- Works a run out on what it reaches of the disk, and then writes its changes. -/
def runOnDisk (args : List String) (command : Command) : IO Outcome := do
  let s ← surroundings command
  let before ← Disk.readReach s command
  let (outcome, after) := (run s args).run before
  Disk.writeChanges before after
  return outcome

def Outcome.print (o : Outcome) : IO UInt32 := do
  let output ← IO.getStdout
  output.write o.output.toBytes
  output.flush
  (← IO.getStderr).putStr o.errors
  return UInt32.ofNat o.exit

def program (args : List String) : IO UInt32 := do
  match readCommand args with
  | .error refusal => refusal.outcome.print
  | .ok command =>
    match ← (runOnDisk args command).toBaseIO with
    | .ok outcome => outcome.print
    | .error e => Outcome.print ⟨1, .empty, Trail.message [toString e]⟩

end Screenwright.CommandLine

def main (args : List String) : IO UInt32 := Screenwright.CommandLine.program args
