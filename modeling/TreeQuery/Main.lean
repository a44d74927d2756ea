import TreeQuery.Command.Run
import TreeQuery.Disk.Manifest

/-!
# The program

The command line against a disk whose manifest comes in on standard input.
Everything is decided by `Request.ofWords` and `Request.run`; here the manifest
is read, the clock is looked at, and the outcome is printed.
-/

namespace TreeQuery

/-- Does a request look at the disk? -/
def Request.usesDisk : Request → Bool
  | select _ => true
  | get _ => true
  | help _ => false
  | version => false

/-- The lines of standard input. -/
partial def readLines (input : IO.FS.Stream) (lines : List String) : IO (List String) := do
  let line ← input.getLine
  if line.isEmpty then return lines.reverse
  readLines input (line :: lines)

/-- Print an outcome. -/
def Outcome.print (o : Outcome) (milliseconds : Nat) : IO Unit := do
  IO.print o.output
  for notice in o.notices do
    IO.eprint (notice.render s!"{milliseconds}ms")

/-- Run a request that is understood. -/
def Request.perform (r : Request) : IO UInt32 := do
  let lines ← if r.usesDisk then readLines (← IO.getStdin) [] else pure []
  match Disk.ofManifest lines with
  | .error n =>
    IO.eprintln s!"line {n} of the manifest describes no node"
    return 1
  | .ok d =>
    let usual := Config.usualPath (← IO.getEnv "XDG_CONFIG_HOME") (← IO.getEnv "HOME")
    let started ← IO.monoMsNow
    let outcome := r.run d usual
    outcome.print ((← IO.monoMsNow) - started)
    return outcome.code.toUInt32

end TreeQuery

open TreeQuery in
/-- Run a command line. -/
def main (words : List String) : IO UInt32 := do
  match Request.ofWords words with
  | .error e =>
    IO.eprint e.text
    return 2
  | .ok request => request.perform
