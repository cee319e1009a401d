/-
  The layout of a database on disk: where the record of a class lies, and which class a record
  without a name describes.
-/
import Ambient.Database

namespace Ambient.Database

/-- The name of the file that lists the classes of a database. -/
def listingName : Path := .ofString "db.json"

/-- The extension of record files. -/
def recordExtension : List Char := "json".toList

/-- Whether a file is taken for a record. -/
def isRecordPath (p : Path) : Bool := p.extension? == some recordExtension

/-- The file of the record of a class: the parts of the dotted name lead from directory to
directory. -/
def recordPath (root : Path) (name : String) : Path :=
  (root.joinAll (Text.split '.' name.toList)).withExtension recordExtension

/-- The components of a path below a root; all of them, if it does not lie below. -/
def below (root path : Path) : List Component :=
  (root.components.isPrefixOf? path.components).getD path.components

/-- The dotted name of the class whose record lies at a path. -/
def nameAt (root path : Path) : String :=
  let inner := Path.empty.joinAll ((below root path).map Component.text)
  String.ofList (Text.join '.' (inner.dropExtension.components.map Component.text))

end Ambient.Database
