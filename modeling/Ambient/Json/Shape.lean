/-
  Shapes of JSON values: readers of texts, flags, lists, tables and records. A reader is given
  the number of containers that may still be opened inside one another; values that no reader
  looks at may nest without limit.
-/
import Ambient.Json.Number
import Ambient.Table

namespace Ambient.Json

/-- The number of containers that may be opened inside one another. -/
def maxDepth : Nat := 127

/-- A way to read values, with so many containers left to open. -/
abbrev Reader (α : Type) := Nat → Raw → Option α

/-- A value read by a reader, with all containers left to open. -/
def Reader.read {α : Type} (r : Reader α) (v : Raw) : Option α := r maxDepth v

/-! ## Sound values -/

mutual

/-- Whether a value is sound to its leaves: its strings are texts, its numbers have finite
values, and its containers do not nest too deeply. -/
def Raw.isSound : Nat → Raw → Bool
  | _, .null => true
  | _, .bool _ => true
  | _, .number n => n.inRange
  | _, .string s => s.text?.isSome
  | 0, .list _ => false
  | depth + 1, .list items => areSound depth items
  | 0, .object _ => false
  | depth + 1, .object members => areSoundMembers depth members

/-- Whether all items of a list are sound. -/
def Raw.areSound : Nat → List Raw → Bool
  | _, [] => true
  | depth, v :: vs => v.isSound depth && areSound depth vs

/-- Whether all members of an object are sound. -/
def Raw.areSoundMembers : Nat → List (Literal × Raw) → Bool
  | _, [] => true
  | depth, (k, v) :: ms => k.text?.isSome && v.isSound depth && areSoundMembers depth ms

end

/-! ## Readers -/

variable {α : Type}

/-- A text. -/
def text : Reader String
  | _, .string s => s.text?
  | _, _ => none

/-- A flag. -/
def flag : Reader Bool
  | _, .bool b => some b
  | _, _ => none

/-- A count below `2 ^ 32`. -/
def count : Reader UInt32
  | _, .number n => n.toUInt32?
  | _, _ => none

/-- A value or null. -/
def nullable (r : Reader α) : Reader (Option α)
  | _, .null => some none
  | depth, v => (r depth v).map some

/-- A list. -/
def listOf (r : Reader α) : Reader (List α)
  | depth + 1, .list items => items.mapM (r depth)
  | _, _ => none

/-- A member of an object with any keys. -/
def entry (r : Reader α) (depth : Nat) (m : Literal × Raw) : Option (String × α) := do
  let key ← m.1.text?
  let value ← r depth m.2
  pure (key, value)

/-- An object with any keys, as a table. -/
def tableOf (r : Reader α) : Reader (Table α)
  | depth + 1, .object members => (members.mapM (entry r depth)).map Table.ofList
  | _, _ => none

/-- A value that is sound to its leaves, read from its outermost level. -/
def sound (r : Raw → Option α) : Reader α := fun depth v => if v.isSound depth then r v else none

/-- A text or a list of texts. -/
def oneOrMany : Reader (List String) := sound fun
  | .string s => s.text?.map fun t => [t]
  | .list items => items.mapM (text 0)
  | _ => none

/-- A text, a list of texts, or null for no texts. -/
def manyOrNull : Reader (List String) := fun depth v =>
  (nullable oneOrMany depth v).map fun texts => texts.getD []

/-- One of several words, or an object whose only key is the word and whose value is null. -/
def word : Reader String
  | _, .string s => s.text?
  | _ + 1, .object [(k, .null)] => k.text?
  | _, _ => none

/-! ## Records -/

/-- The fields of a record, by name. -/
abbrev Fields := String → Option Raw

/-- Whether the keys of an object are texts, and none that is listed comes twice. -/
def areFieldKeys (names : List String) (keys : List Literal) : Bool :=
  keys.all (fun k => k.text?.isSome) &&
    names.all fun name => (keys.filter fun k => k.text? == some name).length ≤ 1

/-- The fields of a record that is written as an object, other keys ignored, or as a list of
its first fields in their order. -/
def fields? (names : List String) : Raw → Option Fields
  | .object members =>
    if areFieldKeys names (members.map (·.1)) then
      some fun name => (members.find? fun m => m.1.text? == some name).map (·.2)
    else none
  | .list items =>
    if items.length ≤ names.length then some fun name => (names.zip items).lookup name else none
  | _ => none

/-- A record with the listed fields. -/
def record (names : List String) (build : Nat → Fields → Option α) : Reader α
  | depth + 1, v => (fields? names v).bind (build depth)
  | 0, _ => none

/-- A field that may be left out. -/
def Fields.get (f : Fields) (depth : Nat) (name : String) (r : Reader α) (absent : α) :
    Option α :=
  match f name with
  | some v => r depth v
  | none => some absent

/-- A field that may be left out or be null. -/
def Fields.get? (f : Fields) (depth : Nat) (name : String) (r : Reader α) :
    Option (Option α) := f.get depth name (nullable r) none

/-- A field that has to be there. -/
def Fields.require (f : Fields) (depth : Nat) (name : String) (r : Reader α) : Option α :=
  (f name).bind (r depth)

end Ambient.Json
