/-
  JSON as it is written: objects keep their members in order, repeated keys included, numbers
  keep their digits, and strings tell whether their escapes make a text.
-/

namespace Ambient.Json

/-- A string as written: a text, or escapes in which half of a surrogate pair is missing. -/
inductive Literal
  | text (s : String)
  | unpaired
deriving DecidableEq, Repr

/-- The text of a string, if it has one. -/
def Literal.text? : Literal → Option String
  | .text s => some s
  | .unpaired => none

/-- A number as written: its sign, the digits before and after the point, and the sign and
digits of its exponent. -/
structure Number where
  negative : Bool
  whole : List Char
  fraction : Option (List Char)
  exponent : Option (Bool × List Char)
deriving DecidableEq, Repr

/-- A JSON value as written. -/
inductive Raw
  | null
  | bool (b : Bool)
  | number (n : Number)
  | string (s : Literal)
  | list (items : List Raw)
  | object (members : List (Literal × Raw))
deriving Repr, Inhabited

end Ambient.Json
