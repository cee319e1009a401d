/-
  The program on the disk: what a run may look at is read, the report of the run is made, and
  what the report holds is written and printed.
-/
import Ambient.CommandLine.Disk
import Ambient.CommandLine.Logging
import Ambient.CommandLine.Program
import Std.Time

open Ambient Ambient.CommandLine

namespace Ambient.CommandLine

/-- The form of the time in the header of the declarations. -/
def timeForm : String := "EEE MMM dd uuuu HH:mm:ss 'GMT'xx"

/-- The files that a run with the given arguments may look at. Arguments that ask for nothing
need no files. -/
def filesFor (argv : List String) (cwd : Path) : IO FileTree :=
  match Arguments.parse argv with
  | .ok args => Disk.read args cwd
  | .error _ => pure ⟨.emptyDirectory, []⟩

/-- The settings of the log. -/
def logSettings? (argv : List String) : IO (Option LogSettings) := do
  match Arguments.parse argv with
  | .ok args =>
    return LogSettings.resolve? (← IO.getEnv "QXDTS_LOG") none (← IO.getEnv "QXDTS_LOG_FORMAT")
      args.verbosity
  | .error _ => return none

end Ambient.CommandLine

/-- Runs the program with a list of arguments. -/
def main (argv : List String) : IO UInt32 := do
  if let some log ← logSettings? argv then IO.eprint log.firstLine
  let cwd := Path.ofString (← IO.currentDir).toString
  let files ← filesFor argv cwd
  let time := (← Std.Time.DateTime.now).format timeForm
  let r := report files argv cwd time
  (Node.changes [] (some files.root) r.files.root).forM Disk.make
  IO.print r.out
  IO.eprint r.err
  return r.code.toUInt32
