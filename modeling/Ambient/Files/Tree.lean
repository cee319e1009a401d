/-
  File trees: directories with named entries down to files with bytes. Locations lead from the
  root of a tree to a node. Main statement: `get?_put` (what is put at a location is found
  there).
-/
import Ambient.Files.Fault
import Ambient.Table

namespace Ambient

/-- A file with its bytes, or a directory with its entries. -/
inductive Node
  | file (bytes : ByteArray)
  | directory (entries : List (String × Node))

/-- The names on the way from the root of a tree to a node. -/
abbrev Location := List String

namespace Node

/-- The directory without entries. -/
def emptyDirectory : Node := .directory []

/-- Whether a node is a directory. -/
def isDirectory : Node → Bool
  | .directory _ => true
  | .file _ => false

/-- The entry of a name. -/
def child? : Node → String → Option Node
  | .directory entries, name => entries.lookup name
  | .file _, _ => none

/-- The node at a location. -/
def get? (n : Node) : Location → Option Node
  | [] => some n
  | name :: rest => (n.child? name).bind fun c => c.get? rest

/-- The tree with a node put at a location. Nothing happens if the directory that the node
belongs into is missing. -/
def put (new : Node) : Location → Node → Node
  | [], _ => new
  | [name], .directory entries => .directory (Table.insertEntry name new entries)
  | name :: next :: rest, .directory entries =>
    match entries.lookup name with
    | some child => .directory (Table.insertEntry name (put new (next :: rest) child) entries)
    | none => .directory entries
  | _ :: _, .file bytes => .file bytes

/-- What a walk meets: a file with its bytes, or a directory that cannot be entered because of
its path. -/
inductive Sighting
  | file (path : Path) (bytes : ByteArray)
  | barred (path : Path) (fault : FileFault)

mutual

/-- What a walk meets in a tree, seen from the path of its root: depth first, the entries of a
directory in the order of their names. -/
def walk (path : Path) : Node → List Sighting
  | .file bytes => [.file path bytes]
  | .directory entries =>
    match FileFault.ofPath? path with
    | some fault => [.barred path fault]
    | none => ((walkEntries path entries).mergeSort fun a b => decide (a.1 ≤ b.1)).flatMap (·.2)

/-- What a walk meets below each entry of a directory. -/
def walkEntries (path : Path) : List (String × Node) → List (String × List Sighting)
  | [] => []
  | (name, n) :: rest => (name, walk (path.join (.ofString name)) n) :: walkEntries path rest

end

/-- What is put at a location is found there, if the directory of the location is there. -/
theorem get?_put {new n : Node} {dir : Location} {name : String}
    (h : ∃ entries, n.get? dir = some (.directory entries)) :
    (put new (dir ++ [name]) n).get? (dir ++ [name]) = some new := by
  induction dir generalizing n with
  | nil =>
    obtain ⟨entries, h⟩ := h
    simp only [get?, Option.some.injEq] at h
    subst h
    rw [List.nil_append, put]
    simp [get?, child?, Table.lookup_insertEntry]
  | cons d dir ih =>
    cases n with
    | file bytes => simp [get?, child?] at h
    | directory es =>
      simp only [get?, child?, Option.bind_eq_some_iff] at h
      obtain ⟨entries, c, hc, h⟩ := h
      obtain ⟨next, rest, hr⟩ : ∃ next rest, dir ++ [name] = next :: rest :=
        List.exists_cons_of_ne_nil (by simp)
      have := ih ⟨entries, h⟩
      rw [List.cons_append, hr] at *
      rw [put, hc]
      simpa [get?, child?, Table.lookup_insertEntry] using this

end Node

/-- A file tree, and the location of the directory that relative paths start from. -/
structure FileTree where
  root : Node
  home : Location

end Ambient
