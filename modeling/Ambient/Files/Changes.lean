/-
  Changes: what a run does to a file tree, as the list of the directories and files that it
  makes.
-/
import Ambient.Files.Tree

namespace Ambient

/-- A new directory, or a file with new bytes. -/
inductive Change
  | directory (loc : Location)
  | file (loc : Location) (bytes : ByteArray)

namespace Node

/-- Whether an old node has to give way to a file with the given bytes. -/
def differsFrom (old : Option Node) (bytes : ByteArray) : Bool :=
  match old with
  | some (.file b) => b != bytes
  | _ => true

mutual

/-- The changes at and below a location that make a new node out of the old one, directories
before what they hold. -/
def changes (loc : Location) (old : Option Node) : Node → List Change
  | .file bytes => if differsFrom old bytes then [.file loc bytes] else []
  | .directory entries =>
    (if (old.map isDirectory).getD false then [] else [.directory loc]) ++
      changesBelow loc old entries

/-- The changes at the entries of a directory. -/
def changesBelow (loc : Location) (old : Option Node) : List (String × Node) → List Change
  | [] => []
  | (name, n) :: rest =>
    changes (loc ++ [name]) (old.bind (·.child? name)) n ++ changesBelow loc old rest

end

end Node

end Ambient
