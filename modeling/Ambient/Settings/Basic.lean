/-
  Settings: where the declarations go, what stands before them, which members are commented
  out, and the words that types are documented with.
-/
import Ambient.Path.Basic
import Ambient.TypeText.Vocabulary

namespace Ambient

open TypeText

/-- What is settled before declarations are written. Links to sources are relative to the
directory of `output`, seen from `workingDir` if it is given. -/
structure Settings where
  output : Path
  workingDir : Option Path
  preamble : String
  ignored : Table (List String)
  vocabulary : Vocabulary

namespace Settings

/-- The output where no other is named. -/
def defaultOutput : Path := .ofString "qooxdoo.d.ts"

/-- Settings without a preamble, ignored members or words. -/
def blank : Settings := ⟨defaultOutput, none, "", .empty, .empty⟩

/-- Members followed by the new ones that are not among them yet. -/
def addMembers (old new : List String) : List String :=
  new.foldl (fun members m => if m ∈ members then members else members ++ [m]) old

/-- The settings with more members of a class ignored. -/
def ignore (s : Settings) (className : String) (members : List String) : Settings :=
  let old := (s.ignored.get? className).getD []
  { s with ignored := s.ignored.insert className (addMembers old members) }

/-- The settings with the type that a word stands for. -/
def define (s : Settings) (word type : String) : Settings :=
  { s with vocabulary := s.vocabulary.insert word type }

/-- Whether a member is written commented out in the block of a class. -/
def ignores (s : Settings) (className member : String) : Bool :=
  ((s.ignored.get? className).getD []).contains member

end Settings

end Ambient
