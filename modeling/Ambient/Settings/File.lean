/-
  Settings files: what a project sets for its declarations, in JSON.
-/
import Ambient.Files.Access
import Ambient.Json.Reader
import Ambient.Json.Shape

namespace Ambient

open Json

/-- What a settings file sets. Its paths are relative to `directory`, where the file lies. -/
structure SettingsFile where
  output : Option String
  preamble : Option String
  ignored : Table (List String)
  vocabulary : Table String
  directory : Path

namespace SettingsFile

/-- The name of the settings file that is used where none is given. -/
def defaultName : Path := .ofString "qxdts.json"

/-- The settings file with a given content. -/
def reader (directory : Path) : Reader SettingsFile :=
  record ["outputTo", "baseDeclaration", "ignore", "typeMappings"] fun depth f => do
    let output ← f.get? depth "outputTo" text
    let preamble ← f.get? depth "baseDeclaration" text
    let ignored ← f.get? depth "ignore" (tableOf oneOrMany)
    let vocabulary ← f.get depth "typeMappings" (tableOf text) .empty
    pure ⟨output, preamble, ignored.getD .empty, vocabulary, directory⟩

/-- The settings file at a path. -/
def load (t : FileTree) (p : Path) : Except Failure SettingsFile :=
  match t.readText p with
  | .error e => .error ⟨[.readSettings p], .fault e⟩
  | .ok s =>
    match (Json.parse? s).bind (reader (p.parent?.getD .empty)).read with
    | some file => .ok file
    | none => .error ⟨[.parseSettings p], .malformed⟩

/-- The path of the settings file to use: the given one, which has to be there, or else the
default one, if it is there. -/
def path? (t : FileTree) (given : Option Path) (cwd : Path) : Option Path :=
  match given with
  | some p => some (cwd.join p)
  | none => if t.isFile (cwd.join defaultName) then some (cwd.join defaultName) else none

/-- A path that the file names. -/
def resolve (file : SettingsFile) (p : String) : Path := file.directory.join (.ofString p)

end SettingsFile

end Ambient
