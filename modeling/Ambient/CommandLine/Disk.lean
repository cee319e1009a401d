/-
  The disk: the parts of it that a run may look at are read into a file tree, and the changes
  of a run are made on it. Links are read as what they lead to.
-/
import Ambient.CommandLine.Arguments
import Ambient.Database.Layout
import Ambient.Files.Changes
import Ambient.Settings.Resolution

namespace Ambient.CommandLine.Disk

/-- The text of the path of a location. -/
def pathText (loc : Location) : String := "/" ++ "/".intercalate loc

/-- A directory with all that is below it. `above` are the directories it was reached through: a
link back to one of them is left out, and so is a link that leads nowhere. The bytes of a file
that is no record are left out. -/
partial def readDirectory (above : List String) (path : String) : IO Node := do
  let above := (← IO.FS.realPath (System.mkFilePath [path])).toString :: above
  let entries ← (System.mkFilePath [path]).readDir
  let nodes ← entries.toList.filterMapM fun entry => do
    let below := path ++ "/" ++ entry.fileName
    let file : IO Node :=
      if Database.isRecordPath (.ofString below) then Node.file <$> IO.FS.readBinFile below
      else pure (.file .empty)
    match (← entry.path.symlinkMetadata).type with
    | .dir => return some (entry.fileName, ← readDirectory above below)
    | .file => return some (entry.fileName, ← file)
    | .symlink =>
      if ← entry.path.isDir then
        if above.contains (← IO.FS.realPath entry.path).toString then return none
        else return some (entry.fileName, ← readDirectory above below)
      else if ← entry.path.pathExists then return some (entry.fileName, ← file)
      else return none
    | .other => return none
  return .directory nodes

/-- The node at a location, of a directory without its entries. -/
def readNode (loc : Location) : IO (Option Node) := do
  let path := System.mkFilePath [pathText loc]
  if ← path.isDir then return some .emptyDirectory
  else if ← path.pathExists then return some (.file (← IO.FS.readBinFile path))
  else return none

/-- The tree with the node at a location. Directories that are known already stay. -/
def addNode (t : FileTree) (loc : Location) : IO FileTree := do
  if (t.root.get? loc).any (·.isDirectory) then return t
  match ← readNode loc with
  | some n => return t.put loc n
  | none => return t

/-- The tree with the nodes on the way that a path leads, and where it leads. -/
def followPath (t : FileTree) (p : Path) : IO (FileTree × Location) :=
  p.components.foldlM (fun (t, loc) component => do
    match component with
    | .root | .here => return (t, loc)
    | .up => return (t, loc.dropLast)
    | .name n =>
      let loc := loc ++ [String.ofList n]
      return (← addNode t loc, loc)) (t, [])

/-- The tree with the nodes on the way to a path, if a path is given. -/
def addPath (t : FileTree) (p : Option Path) : IO FileTree := do
  match p with
  | none => return t
  | some p => return (← followPath t p).1

/-- The tree with a database. -/
def addDatabase (t : FileTree) (root : Path) : IO FileTree := do
  let (t, loc) ← followPath t root
  if (t.root.get? loc).any (·.isDirectory) then
    return t.put loc (← readDirectory [] (pathText loc))
  else return t

/-- What a run with the given arguments, started in a directory, may look at. -/
def read (args : Arguments) (cwd : Path) : IO FileTree := do
  let t ← addDatabase ⟨.emptyDirectory, []⟩ (cwd.join args.database)
  let (t, home) ← followPath t cwd
  let t := { t with home := home }
  let t ← addPath t (some (cwd.join (args.settings.getD SettingsFile.defaultName)))
  let file := (Settings.file? t args cwd).toOption.join
  let t ← addPath t (args.preamble.map cwd.join)
  let t ← addPath t (file.bind fun f => f.preamble.map f.resolve)
  addPath t ((Settings.resolve t args cwd).toOption.map fun s => cwd.join s.output)

/-- Makes a change. -/
def make : Change → IO Unit
  | .directory loc => IO.FS.createDir (pathText loc)
  | .file loc bytes => IO.FS.writeBinFile (pathText loc) bytes

end Ambient.CommandLine.Disk
