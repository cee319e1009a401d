/-
  Databases of class records, and the indexes that declarations are written from. Main
  statements: `find?_insert` and `names_insert` (the last record under a name counts, at the
  place of the first).
-/
import Ambient.Path.Basic
import Ambient.Record.Basic

namespace Ambient

/-- What declarations are written from: a root directory, the listed names, and the records
known by name. A listed name may lack a record. -/
structure Index where
  root : Path
  names : List String
  records : Table Record

/-- The record of a name. -/
def Index.find? (i : Index) (name : String) : Option Record := i.records.get? name

/-- Whether a name has a record. -/
def Index.knows (i : Index) (name : String) : Bool := i.records.contains name

/-- Records under names, with the directory that they come from. -/
structure Database where
  root : Path
  records : Table Record

namespace Database

/-- The database without records. -/
def empty (root : Path) : Database := ⟨root, .empty⟩

/-- The database with one more record. -/
def insert (db : Database) (name : String) (r : Record) : Database :=
  { db with records := db.records.insert name r }

/-- The names, oldest first. -/
def names (db : Database) : List String := db.records.keys

/-- The record of a name. -/
def find? (db : Database) (name : String) : Option Record := db.records.get? name

/-- The number of names. -/
def size (db : Database) : Nat := db.records.size

/-- Whether the database has no names. -/
def isEmpty (db : Database) : Bool := db.size == 0

/-- The database with a record under its own name; a record without a name is dropped. -/
def add (db : Database) (r : Record) : Database :=
  match r.name with
  | some name => db.insert name r
  | none => db

/-- The database of a list of records, each under its own name. -/
def ofRecords (root : Path) (rs : List Record) : Database := rs.foldl add (empty root)

/-- The database as an index that lists just the names with records. -/
def index (db : Database) : Index := ⟨db.root, db.names, db.records⟩

theorem find?_insert (db : Database) (name n : String) (r : Record) :
    (db.insert name r).find? n = if n = name then some r else db.find? n :=
  Table.get?_insert db.records name n r

theorem names_insert (db : Database) (name : String) (r : Record) :
    (db.insert name r).names = if name ∈ db.names then db.names else db.names ++ [name] :=
  Table.keys_insert db.records name r

end Database

end Ambient
