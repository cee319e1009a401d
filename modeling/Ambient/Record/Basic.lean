/-
  Class records: what is known of one class, interface, mixin or theme.
-/
import Ambient.Table

namespace Ambient

/-- What a record describes. -/
inductive Kind
  | regular
  | interface
  | mixin
  | theme
  | other
deriving DecidableEq, Repr

/-- Who may use a member. -/
inductive Access
  | everyone
  | heirs
  | owner
  | unspecified
deriving DecidableEq, Repr

/-- The word that a declaration has for an access, if it has one. -/
def Access.modifier? : Access → Option String
  | .everyone => some "public"
  | .heirs => some "protected"
  | .owner => none
  | .unspecified => none

/-- A reference to a type: a name, a list of alternatives, or a name with dimensions. -/
inductive TypeRef
  | name (text : String)
  | alternatives (refs : List TypeRef)
  | sized (text : String) (dimensions : UInt32)
deriving Repr

/-- The name that a reference leads to. Alternatives lead to one only if there is one. -/
def TypeRef.name? : TypeRef → Option String
  | .name text => some text
  | .sized text _ => some text
  | .alternatives [ref] => ref.name?
  | .alternatives _ => none

/-- The dimensions that come with the name. -/
def TypeRef.dimensions : TypeRef → UInt32
  | .name _ => 0
  | .sized _ dimensions => dimensions
  | .alternatives [ref] => ref.dimensions
  | .alternatives _ => 0

/-- A parameter. -/
structure Param where
  name : String
  optional : Bool
  type : Option TypeRef
deriving Repr

/-- What a method returns. -/
structure Return where
  type : Option TypeRef
deriving Repr

/-- An entry among the statics or the members of a class. -/
structure Method where
  kind : Option String
  access : Option Access
  isAbstract : Bool
  isAsync : Bool
  isStatic : Bool
  fromMixin : Bool
  params : List Param
  returns : Option Return
  doc : Option (Table (List String))

namespace Method

/-- Whether the entry is a method; other entries are not declared. -/
def isFunction (m : Method) : Bool := m.kind == some "function"

/-- The description of a method: the first text under its tag, unless it is empty. -/
def description? (m : Method) : Option String := do
  let tags ← m.doc
  let texts ← tags.get? "@description"
  let first ← texts.head?
  if first = "" then none else some first

end Method

/-- A property: its documented type, and the properties that it bundles. -/
structure Property where
  check : Option String
  isAsync : Bool
  group : List String
deriving Repr

/-- Whether a property only bundles others. -/
def Property.isGroup (p : Property) : Bool := !p.group.isEmpty

/-- A class record. -/
structure Record where
  name : Option String
  kind : Kind
  superClasses : List String
  interfaces : List String
  mixins : List String
  isAbstract : Bool
  isSingleton : Bool
  construct : Option Method
  statics : Table Method
  members : Table Method
  properties : Table Property
  file : Option String

/-- The tables in which a record declares names. -/
inductive Section
  | statics
  | members
  | properties
deriving DecidableEq, Repr

namespace Record

/-- The record without a word of text. -/
def blank : Record :=
  ⟨none, .regular, [], [], [], false, false, none, .empty, .empty, .empty, none⟩

/-- Whether a record describes an interface. -/
def isInterface (r : Record) : Bool := r.kind == .interface

/-- Whether a record declares a name in one of its tables. -/
def declares (r : Record) : Section → String → Bool
  | .statics, name => r.statics.contains name
  | .members, name => r.members.contains name
  | .properties, name => r.properties.contains name

end Record

end Ambient
