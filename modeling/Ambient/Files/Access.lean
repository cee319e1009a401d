/-
  Access to a file tree by paths: a path is followed segment by segment, `..` leads back to
  the directory above, and every segment needs a directory before it.
-/
import Ambient.Failure
import Ambient.Files.Tree

namespace Ambient.FileTree

/-! ## Finding -/

/-- The location that a segment leads to. -/
def follow (t : FileTree) (loc : Location) (segment : List Char) : Except FileFault Location :=
  match t.root.get? loc with
  | some (.directory entries) =>
    if Path.isSilent segment then .ok loc
    else if segment = ['.', '.'] then .ok loc.dropLast
    else
      let name := String.ofList segment
      if (entries.lookup name).isSome then .ok (loc ++ [name])
      else .error ((FileFault.ofName? name).getD .notFound)
  | _ => .error .notDirectory

/-- The location that segments lead to, one after the other. -/
def followAll (t : FileTree) (loc : Location) (segments : List (List Char)) :
    Except FileFault Location := segments.foldlM t.follow loc

/-- Where the first segment of a path is followed from. -/
def start (t : FileTree) (p : Path) : Location := if p.isAbsolute then [] else t.home

/-- The location of the node at a path. -/
def locate (t : FileTree) (p : Path) : Except FileFault Location := do
  let p ← p.checked
  t.followAll (t.start p) p.segments

/-- The node at a path. -/
def find (t : FileTree) (p : Path) : Except FileFault Node := do
  let loc ← t.locate p
  match t.root.get? loc with
  | some n => .ok n
  | none => .error .notFound

/-- Whether there is a directory at a path. -/
def isDirectory (t : FileTree) (p : Path) : Bool :=
  match t.find p with
  | .ok (.directory _) => true
  | _ => false

/-- Whether there is a file at a path. -/
def isFile (t : FileTree) (p : Path) : Bool :=
  match t.find p with
  | .ok (.file _) => true
  | _ => false

/-- The text that bytes encode. -/
def decode (bytes : ByteArray) : Except FileFault String :=
  match String.fromUTF8? bytes with
  | some s => .ok s
  | none => .error .notText

/-- The text of a file whose path and bytes are known. -/
def readKnown (p : Path) (bytes : ByteArray) : Except FileFault String := do
  let _ ← p.checked
  decode bytes

/-- The text of the file at a path. -/
def readText (t : FileTree) (p : Path) : Except FileFault String := do
  match ← t.find p with
  | .file bytes => decode bytes
  | .directory _ => .error .isDirectory

/-! ## Changing -/

/-- A place for an entry: its directory and its name, and whether a separator follows the name
in the path. -/
structure Slot where
  directory : Location
  name : String
  closed : Bool

/-- The place that a path names, or none if it ends in no name but in a directory itself. -/
def slot (t : FileTree) (p : Path) : Except FileFault (Option Slot) := do
  let p ← p.checked
  let named := (p.segments.reverse.dropWhile (·.isEmpty)).reverse
  match named.getLast? with
  | none => .ok none
  | some last => do
    let dir ← t.followAll (t.start p) named.dropLast
    match t.root.get? dir with
    | some (.directory _) =>
      if Path.isSilent last || last = ['.', '.'] then .ok none
      else .ok (some ⟨dir, String.ofList last, named.length < p.segments.length⟩)
    | _ => .error .notDirectory

/-- The location of a place. -/
def Slot.location (s : Slot) : Location := s.directory ++ [s.name]

/-- The tree with a node put at a location. -/
def put (t : FileTree) (loc : Location) (n : Node) : FileTree :=
  { t with root := Node.put n loc t.root }

/-- The tree with a new directory at a path. -/
def createDirectory (t : FileTree) (p : Path) : Except FileFault FileTree := do
  match ← t.slot p with
  | none => .error .alreadyExists
  | some s =>
    match t.root.get? s.location with
    | some _ => .error .alreadyExists
    | none =>
      match FileFault.ofName? s.name with
      | some f => .error f
      | none => .ok (t.put s.location .emptyDirectory)

/-- The tree with a directory at a path and at all paths on the way. On a fault the
directories created before it stay. -/
def createDirectories (t : FileTree) (p : Path) : FileTree × Except FileFault Unit :=
  if p.chars.isEmpty then (t, .ok ())
  else
    match t.createDirectory p with
    | .ok t => (t, .ok ())
    | .error .notFound =>
      match _h : p.parent? with
      | none => (t, .error .notFound)
      | some parent =>
        match t.createDirectories parent with
        | (t, .error e) => (t, .error e)
        | (t, .ok ()) =>
          match t.createDirectory p with
          | .ok t => (t, .ok ())
          | .error e => (t, if t.isDirectory p then .ok () else .error e)
    | .error e => (t, if t.isDirectory p then .ok () else .error e)
termination_by p.chars.length
decreasing_by exact Path.length_lt_of_parent? _h

/-- The location of the file that is written at a path: a new one, or one that is there. -/
def outputLocation (t : FileTree) (p : Path) : Except FileFault Location := do
  match ← t.slot p with
  | none => .error .isDirectory
  | some s =>
    if s.closed then .error .isDirectory
    else
      match t.root.get? s.location with
      | some (.directory _) => .error .isDirectory
      | some (.file _) => .ok s.location
      | none =>
        match FileFault.ofName? s.name with
        | some f => .error f
        | none => .ok s.location

end Ambient.FileTree
