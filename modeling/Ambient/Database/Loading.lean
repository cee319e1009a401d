/-
  Loading a database from disk: the classes that a listing names, or, without a listing, all
  records below the root.
-/
import Ambient.Database.Layout
import Ambient.Files.Access
import Ambient.Record.Reading

namespace Ambient.Database

open Json

/-- The names in a listing. -/
def listing : Reader (List String) :=
  record ["classnames"] fun depth f => f.get depth "classnames" (listOf text) []

/-- The value that a text is, as read by a reader of JSON. -/
def parse {α : Type} (t : Task) (read : String → Option α) (s : String) : Except Failure α :=
  match read s with
  | some a => .ok a
  | none => .error ⟨[t], .malformed⟩

/-- A result with a file fault as the cause of its failure. -/
def fault {α : Type} (t : Task) (r : Except FileFault α) : Except Failure α :=
  r.mapError fun f => ⟨[t], .fault f⟩

/-- The record in the text of a file. -/
def parseRecord (p : Path) (s : String) : Except Failure Record :=
  parse (.parse p) Record.parse? s

/-- The record in the file at a path. -/
def readRecord (t : FileTree) (p : Path) : Except Failure Record := do
  let s ← fault (.read p) (t.readText p)
  parseRecord p s

/-- The names in the listing at a path. -/
def readListing (t : FileTree) (p : Path) : Except Failure (List String) := do
  let s ← fault (.read p) (t.readText p)
  parse (.parse p) (fun s => (Json.parse? s).bind listing.read) s

/-- The database with the record of a listed name, if the name has a file. -/
def addListed (t : FileTree) (db : Database) (name : String) : Except Failure Database :=
  let p := recordPath db.root name
  if t.isFile p then do
    let r ← readRecord t p
    pure (db.insert name r)
  else pure db

/-- The database with what a walk has met: the record in a record file, which is named for the
place of its file if it has no name. Other files do not count. -/
def addScanned (db : Database) : Node.Sighting → Except Failure Database
  | .barred p f => .error ⟨[.scan db.root, .enter p], .fault f⟩
  | .file p bytes =>
    if isRecordPath p then do
      let s ← fault (.read p) (FileTree.readKnown p bytes)
      let r ← parseRecord p s
      pure (db.insert (r.name.getD (nameAt db.root p)) r)
    else .ok db

/-- The database below a root directory. -/
def load (t : FileTree) (root : Path) : Except Failure Database :=
  match t.find root with
  | .ok (.directory entries) =>
    let listingPath := root.join listingName
    if t.isFile listingPath then do
      let names ← readListing t listingPath
      names.foldlM (addListed t) (empty root)
    else ((Node.directory entries).walk root).foldlM addScanned (empty root)
  | _ => .error ⟨[], .noDatabase root⟩

end Ambient.Database
