/-
  File faults: why a file or a directory could not be used, and what is wrong with a path or a
  name as such, whatever the files are.
-/
import Ambient.Path.Basic

namespace Ambient

/-- Why a file or a directory could not be used. -/
inductive FileFault
  | notFound
  | notDirectory
  | isDirectory
  | alreadyExists
  | notText
  | invalidName
  | longName
deriving DecidableEq, Repr

namespace FileFault

/-- The text of a file fault. -/
def message : FileFault → String
  | .notFound => "No such file or directory (os error 2)"
  | .notDirectory => "Not a directory (os error 20)"
  | .isDirectory => "Is a directory (os error 21)"
  | .alreadyExists => "File exists (os error 17)"
  | .notText => "stream did not contain valid UTF-8"
  | .invalidName => "file name contained an unexpected NUL byte"
  | .longName => "File name too long (os error 36)"

/-- The most bytes that a path has. -/
def maxPathBytes : Nat := 4095

/-- The most bytes that a name has. -/
def maxNameBytes : Nat := 255

/-- What is wrong with a path: it holds NUL, is empty or has too many bytes. -/
def ofPath? (p : Path) : Option FileFault :=
  if p.chars.contains '\x00' then some .invalidName
  else if p.chars.isEmpty then some .notFound
  else if maxPathBytes < p.text.utf8ByteSize then some .longName
  else none

/-- What is wrong with a name that no directory holds yet, if it is wanted there. -/
def ofName? (name : String) : Option FileFault :=
  if maxNameBytes < name.utf8ByteSize then some .longName else none

end FileFault

/-- A path that can be used. -/
def Path.checked (p : Path) : Except FileFault Path :=
  match FileFault.ofPath? p with
  | some f => .error f
  | none => .ok p

end Ambient
