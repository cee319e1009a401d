/-
  Failures: what was being done, from the outside in, and why it could not be done.
-/
import Ambient.Emission.Sink
import Ambient.Files.Fault

namespace Ambient

/-- Why something could not be done. -/
inductive Cause
  | fault (f : FileFault)
  | malformed
  | noDatabase (root : Path)
  | inclusion (e : InclusionError)
deriving DecidableEq, Repr

/-- The text of a cause. -/
def Cause.message : Cause → String
  | .fault f => f.message
  | .malformed => "malformed JSON"
  | .noDatabase root => "meta directory " ++ root.text ++ " does not exist"
  | .inclusion e => e.message

/-- What was being done. -/
inductive Task
  | loadDatabase (root : Path)
  | read (p : Path)
  | parse (p : Path)
  | scan (root : Path)
  | enter (p : Path)
  | readSettings (p : Path)
  | parseSettings (p : Path)
  | readPreamble (p : Path)
  | createDirectory (p : Path)
  | createOutput (p : Path)
  | writeOutput (p : Path)
deriving DecidableEq, Repr

/-- The text that tells of a task that could not be done. -/
def Task.message : Task → String
  | .loadDatabase root => "failed to load meta-database from " ++ root.text
  | .read p => "failed to read " ++ p.text
  | .parse p => "failed to parse " ++ p.text
  | .scan root => "failed to scan " ++ root.text
  | .enter p => "failed to enter " ++ p.text
  | .readSettings p => "failed to read config " ++ p.text
  | .parseSettings p => "failed to parse config " ++ p.text
  | .readPreamble p => "failed to read base declaration " ++ p.text
  | .createDirectory p => "failed to create directory " ++ p.text
  | .createOutput p => "failed to create " ++ p.text
  | .writeOutput p => "failed to generate " ++ p.text

/-- The tasks that failed, the outermost one first, and the cause. -/
structure Failure where
  tasks : List Task
  cause : Cause
deriving DecidableEq, Repr

namespace Failure

/-- The failure as a failure of the task around it. -/
def during (f : Failure) (t : Task) : Failure := ⟨t :: f.tasks, f.cause⟩

/-- The failure's texts, the outermost one first. -/
def messages (f : Failure) : List String := f.tasks.map Task.message ++ [f.cause.message]

end Failure

/-- The result as the result of the task around it. -/
def inTask {α : Type} (t : Task) (r : Except Failure α) : Except Failure α :=
  r.mapError (·.during t)

end Ambient
