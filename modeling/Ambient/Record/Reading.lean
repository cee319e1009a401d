/-
  Records in JSON. A reader for each part of a record: absent fields have defaults, names may
  come alone or in a list, and words that are not known count as the last of their kind.
-/
import Ambient.Json.Reader
import Ambient.Json.Shape
import Ambient.Record.Basic

namespace Ambient

open Json

/-- The kind that a word names. -/
def Kind.ofWord (w : String) : Kind :=
  if w = "class" then .regular
  else if w = "interface" then .interface
  else if w = "mixin" then .mixin
  else if w = "theme" then .theme
  else .other

/-- The access that a word names. -/
def Access.ofWord (w : String) : Access :=
  if w = "public" then .everyone
  else if w = "protected" then .heirs
  else if w = "private" then .owner
  else .unspecified

/-! ## Type references -/

/-- A name with dimensions. -/
def TypeRef.ofFields? (f : Fields) : Option TypeRef := do
  let name ← f.get 0 "name" text ""
  let dimensions ← f.get 0 "dimensions" count 0
  pure (.sized name dimensions)

mutual

/-- The type reference that a sound value stands for. -/
def TypeRef.ofRaw? : Raw → Option TypeRef
  | .string s => s.text?.map .name
  | .list items => (TypeRef.ofRaws? items).map .alternatives
  | .object members =>
    (fields? ["name", "dimensions"] (.object members)).bind TypeRef.ofFields?
  | _ => none

/-- The type references that sound values stand for. -/
def TypeRef.ofRaws? : List Raw → Option (List TypeRef)
  | [] => some []
  | v :: vs => do
    let ref ← TypeRef.ofRaw? v
    let refs ← TypeRef.ofRaws? vs
    pure (ref :: refs)

end

/-- A type reference. -/
def typeRef : Reader TypeRef := sound TypeRef.ofRaw?

/-! ## Parts of a record -/

/-- A parameter. -/
def param : Reader Param :=
  record ["name", "optional", "type"] fun depth f => do
    let name ← f.require depth "name" text
    let optional ← f.get depth "optional" flag false
    let type ← f.get? depth "type" typeRef
    pure ⟨name, optional, type⟩

/-- What a method returns. -/
def returnType : Reader Return :=
  record ["type"] fun depth f => do
    let type ← f.get? depth "type" typeRef
    pure ⟨type⟩

/-- The text of an entry under a tag. -/
def docText : Reader String :=
  record ["body"] fun depth f => f.get depth "body" text ""

/-- A method, or another entry. -/
def method : Reader Method :=
  record ["type", "access", "abstract", "async", "static", "mixin", "params", "returnType",
      "jsdoc"] fun depth f => do
    let kind ← f.get? depth "type" text
    let access ← f.get? depth "access" fun d v => (word d v).map Access.ofWord
    let isAbstract ← f.get depth "abstract" flag false
    let isAsync ← f.get depth "async" flag false
    let isStatic ← f.get depth "static" flag false
    let fromMixin ← f.get depth "mixin" flag false
    let params ← f.get depth "params" (listOf param) []
    let returns ← f.get? depth "returnType" returnType
    let doc ← f.get? depth "jsdoc" (tableOf (listOf docText))
    pure ⟨kind, access, isAbstract, isAsync, isStatic, fromMixin, params, returns, doc⟩

/-- A text; any other sound value counts as none. -/
def textOrNone : Reader (Option String) := sound fun
  | .string s => s.text?.map some
  | _ => some none

/-- A property. -/
def property : Reader Property :=
  record ["check", "async", "group"] fun depth f => do
    let check ← f.get depth "check" textOrNone none
    let isAsync ← f.get depth "async" flag false
    let group ← f.get depth "group" manyOrNull []
    pure ⟨check, isAsync, group⟩

/-- A class record. -/
def classRecord : Reader Record :=
  record ["className", "type", "superClass", "interfaces", "mixins", "abstract", "isSingleton",
      "construct", "statics", "members", "properties", "classFilename"] fun depth f => do
    let name ← f.get? depth "className" text
    let kind ← f.get depth "type" (fun d v => (word d v).map Kind.ofWord) .regular
    let superClasses ← f.get depth "superClass" manyOrNull []
    let interfaces ← f.get depth "interfaces" manyOrNull []
    let mixins ← f.get depth "mixins" manyOrNull []
    let isAbstract ← f.get depth "abstract" flag false
    let isSingleton ← f.get depth "isSingleton" flag false
    let construct ← f.get? depth "construct" method
    let statics ← f.get depth "statics" (tableOf method) .empty
    let members ← f.get depth "members" (tableOf method) .empty
    let properties ← f.get depth "properties" (tableOf property) .empty
    let file ← f.get? depth "classFilename" text
    pure ⟨name, kind, superClasses, interfaces, mixins, isAbstract, isSingleton, construct,
      statics, members, properties, file⟩

/-- The record that a JSON value is, if it is one. -/
def Record.ofRaw? (v : Raw) : Option Record := classRecord.read v

/-- The record that a text is, if it is one. -/
def Record.parse? (s : String) : Option Record := (Json.parse? s).bind Record.ofRaw?

/-- The optional type reference that a text is, if it is one. -/
def TypeRef.parse? (s : String) : Option (Option TypeRef) :=
  (Json.parse? s).bind (Reader.read (nullable typeRef))

end Ambient
