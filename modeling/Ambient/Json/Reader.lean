/-
  Reading JSON: one step for each lexeme, with a stack of the containers that are still open.
-/
import Ambient.Json.Lexeme

namespace Ambient.Json

/-- An open container that waits for a value, with what it holds already, last first. -/
inductive Frame
  | list (items : List Raw)
  | object (members : List (Literal × Raw)) (key : Literal)

/-- What has been read, and so what may come next. -/
inductive State
  /-- A value has to come. -/
  | value (stack : List Frame)
  /-- A list has just been opened. -/
  | firstItem (stack : List Frame)
  /-- An item of a list has ended. -/
  | afterItem (items : List Raw) (stack : List Frame)
  /-- An object has just been opened. -/
  | firstKey (stack : List Frame)
  /-- Another key has to come. -/
  | nextKey (members : List (Literal × Raw)) (stack : List Frame)
  /-- A key has ended. -/
  | afterKey (members : List (Literal × Raw)) (key : Literal) (stack : List Frame)
  /-- A member of an object has ended. -/
  | afterMember (members : List (Literal × Raw)) (stack : List Frame)
  /-- The whole value has ended. -/
  | complete (v : Raw)

/-- The state after a value has ended. -/
def State.ended (v : Raw) : List Frame → State
  | [] => .complete v
  | .list items :: stack => .afterItem (v :: items) stack
  | .object members key :: stack => .afterMember ((key, v) :: members) stack

/-- The state after the first lexeme of a value. -/
def State.begin (stack : List Frame) : Lexeme → Option State
  | .openList => some (.firstItem stack)
  | .openObject => some (.firstKey stack)
  | .string s => some (.ended (.string s) stack)
  | .scalar v => some (.ended v stack)
  | _ => none

/-- The state after one more lexeme, if the lexeme may come. -/
def State.step : State → Lexeme → Option State
  | .value stack, l => State.begin stack l
  | .firstItem stack, .closeList => some (.ended (.list []) stack)
  | .firstItem stack, l => State.begin (.list [] :: stack) l
  | .afterItem items stack, .comma => some (.value (.list items :: stack))
  | .afterItem items stack, .closeList => some (.ended (.list items.reverse) stack)
  | .firstKey stack, .closeObject => some (.ended (.object []) stack)
  | .firstKey stack, .string s => some (.afterKey [] s stack)
  | .nextKey members stack, .string s => some (.afterKey members s stack)
  | .afterKey members key stack, .colon => some (.value (.object members key :: stack))
  | .afterMember members stack, .comma => some (.nextKey members stack)
  | .afterMember members stack, .closeObject => some (.ended (.object members.reverse) stack)
  | _, _ => none

/-- The value that the lexemes of a text make, if they make one. -/
def ofLexemes? (ls : List Lexeme) : Option Raw :=
  match ls.foldlM State.step (State.value []) with
  | some (.complete v) => some v
  | _ => none

/-- The value written in a text, if the text is JSON. -/
def parse? (s : String) : Option Raw := (lexemes? s.toList).bind ofLexemes?

end Ambient.Json
