/-
  Members: what is written for the entries of a record in the block of a class. Entries that
  the class leaves to an ancestor or to another mixin are left out.
-/
import Ambient.Declaration.Signature
import Ambient.Description
import Ambient.Hierarchy
import Ambient.Path.Relative
import Ambient.Text.Capital

namespace Ambient

open TypeText

/-- The class whose block is written, with all that its text depends on. -/
structure Subject where
  index : Index
  settings : Settings
  record : Record
  name : String
  view : View

/-- A record of an index as the class whose block is written. -/
def Index.subject (i : Index) (settings : Settings) (r : Record) (name : String) : Subject :=
  ⟨i, settings, r, name, i.view r⟩

namespace Subject

open Declaration

/-- What the types of the class are translated with. -/
def scope (s : Subject) : Scope := s.index.scope s.settings.vocabulary

/-! ## Comment blocks -/

/-- The way from the output's directory to the source of the class. -/
def sourceLink? (s : Subject) : Option String :=
  s.record.file.map fun file =>
    let base := s.settings.workingDir.getD .empty
    let outputDir := s.settings.output.parent?.getD .empty
    let source := (base.join s.index.root).join (.ofString file)
    (Path.relative (base.join outputDir) source).display

/-- The lines of a description in a comment block. -/
def descriptionLines (s : Subject) (description : String) : List String :=
  (Text.parts '\n' (Description.toComment s.name description)).map fun line =>
    " * " ++ Text.trimmed line

/-- A comment block. -/
def commentBlock (s : Subject) (description : Option String) : String :=
  let lines := ["/**"] ++ (description.map s.descriptionLines).getD [] ++ [" *"] ++
    (s.sourceLink?.map fun link => " * [source code](" ++ link ++ ")").toList ++ [" */\n"]
  "\n".intercalate (lines.map (indent ++ ·))

/-! ## Methods -/

/-- What is written for a method: its comment block and its line, or nothing if only its owner
may use it. -/
def methodText (s : Subject) (name : String) (sig : Signature) : List String :=
  if sig.access = some .owner then []
  else (sig.comment.map s.commentBlock).toList ++ [sig.line s.scope name]

/-- Whether a mixin that the class includes by itself declares a name. -/
def includes (s : Subject) (part : Section) (name : String) : Bool :=
  s.record.mixins.any fun m => (s.view.mixins.get? m).any (·.declares part name)

/-- Whether the class leaves a name to an ancestor or to another mixin. A name of a mixin that
the class includes by itself is never left. -/
def leaves (s : Subject) (part : Section) (name : String) : Bool :=
  !s.includes part name &&
    (s.view.ancestorDeclares part name || s.view.mixinDeclares part name)

/-- The signature of an entry of `owner`. The members of an interface have no modifiers. -/
def signature (s : Subject) (owner : Record) (isStatic : Bool) (name : String) (m : Method) :
    Signature where
  access := if owner.isInterface then none else m.access
  isStatic := isStatic
  isAbstract := !owner.isInterface && m.isAbstract
  fromMixin := m.fromMixin
  params := m.params
  returns := m.returns.map fun r => s.scope.translateRef r.type
  comment := some m.description?
  hidden := s.settings.ignores s.name name

/-- What is written for the static entries of `owner`, or for its other entries. -/
def methodTexts (s : Subject) (owner : Record) (isStatic : Bool) : List String :=
  let part := if isStatic then Section.statics else .members
  let entries := if isStatic then owner.statics.entries else owner.members.entries
  entries.flatMap fun (name, m) =>
    if m.isFunction && !s.leaves part name then
      s.methodText name (s.signature owner isStatic name m)
    else []

/-- The signature of the accessor of the only instance of a singleton. -/
def instanceSignature (s : Subject) (owner : Record) : Signature where
  access := some .everyone
  isStatic := true
  isAbstract := false
  fromMixin := false
  params := []
  returns := some (s.scope.translate (owner.name.getD s.name))
  comment := some none
  hidden := s.settings.ignores s.name "getInstance"

/-- What is written for the only instance of a singleton. -/
def instanceText (s : Subject) (owner : Record) : List String :=
  if owner.isSingleton then s.methodText "getInstance" (s.instanceSignature owner) else []

/-! ## Properties -/

/-- The accessors of a property: a getter, a second one for a boolean, a setter and a reset. -/
def accessors (s : Subject) (name check suffix : String) : List String :=
  let type := s.scope.translate check
  s.methodText ("get" ++ name ++ suffix) (.accessor [] (some type)) ++
    (if type = "boolean" then
      s.methodText ("is" ++ name ++ suffix) (.accessor [] (some type)) else []) ++
    s.methodText ("set" ++ name ++ suffix)
      (.accessor [⟨"value", false, some (.name check)⟩] none) ++
    s.methodText ("reset" ++ name ++ suffix) (.accessor [] none)

/-- What is written for the properties of `owner`. Properties that bundle others have no
accessors. -/
def propertyTexts (s : Subject) (owner : Record) : List String :=
  owner.properties.entries.flatMap fun (name, p) =>
    if p.isGroup || s.leaves .properties name then []
    else
      let upper := Text.capitalized name
      let check := p.check.getD ""
      s.accessors upper check "" ++ if p.isAsync then s.accessors upper check "Async" else []

/-- What is written for the entries of `owner` itself. -/
def ownTexts (s : Subject) (owner : Record) : List String :=
  s.instanceText owner ++ s.methodTexts owner true ++ s.methodTexts owner false ++
    s.propertyTexts owner

end Subject

end Ambient
