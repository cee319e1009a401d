/-
  A run: the database is loaded and the settings are resolved, then the output is written. A
  run that fails before that changes nothing.
-/
import Ambient.Database.Loading
import Ambient.Declaration.Listing
import Ambient.Settings.Resolution

namespace Ambient

open CommandLine

/-- What a run has done: the output it wrote, and what the output holds. -/
structure Summary where
  output : Path
  stats : Stats
deriving DecidableEq, Repr

/-- The database that the arguments name. -/
def loadDatabase (t : FileTree) (args : Arguments) (cwd : Path) : Except Failure Database :=
  let root := cwd.join args.database
  inTask (.loadDatabase root) (Database.load t root)

/-- The names of the classes, in the order in which they are declared. -/
def listClasses (t : FileTree) (args : Arguments) (cwd : Path) :
    Except Failure (List String) := do
  let db ← loadDatabase t args cwd
  pure db.index.sortedNames

/-- The tree after a run, and how the run ended. -/
structure Run where
  files : FileTree
  result : Except Failure Summary

/-- Writes the declarations of a database. On an inclusion error the output keeps what was
written before it. -/
def writeOutput (t : FileTree) (db : Database) (s : Settings) (output : Path) (time : String) :
    Run :=
  match t.outputLocation output with
  | .error e => ⟨t, .error ⟨[.createOutput output], .fault e⟩⟩
  | .ok loc =>
    let written := db.index.listing s time
    let files := t.put loc (.file written.text.toUTF8)
    match written.outcome with
    | .error e => ⟨files, .error ⟨[.writeOutput output], .inclusion e⟩⟩
    | .ok stats => ⟨files, .ok ⟨output, stats⟩⟩

/-- Writes the declarations of a database, with the directories on the way to the output. -/
def produce (t : FileTree) (db : Database) (s : Settings) (cwd : Path) (time : String) : Run :=
  let output := cwd.join s.output
  let parent := output.parent?.getD .empty
  match t.createDirectories parent with
  | (t, .error e) => ⟨t, .error ⟨[.createDirectory parent], .fault e⟩⟩
  | (t, .ok ()) => writeOutput t db s output time

/-- Loads the database, resolves the settings and writes the declarations. -/
def generate (t : FileTree) (args : Arguments) (cwd : Path) (time : String) : Run :=
  match loadDatabase t args cwd with
  | .error e => ⟨t, .error e⟩
  | .ok db =>
    match Settings.resolve t args cwd with
    | .error e => ⟨t, .error e⟩
    | .ok s => produce t db s cwd time

end Ambient
