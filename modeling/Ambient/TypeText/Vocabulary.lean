/-
  Vocabularies: tables from documentation words to type expressions, and their use on a type
  expression. A pass replaces every word of the vocabulary that stands alone; passes repeat
  until nothing is left to replace, `passLimit` times at most.
-/
import Ambient.Table
import Ambient.TypeText.Token

namespace Ambient.TypeText

/-- Documentation words and the type expressions they stand for. -/
abbrev Vocabulary := Table String

/-- Whether no word touches the place between two neighbours. -/
def isLoose (before after : Option Token) : Bool :=
  before.all Token.isMark && after.all Token.isMark

/-- Whether a token names a type by itself: it is not the head of a generic type, and a mark
touches no word. -/
def standsAlone (before : Option Token) (t : Token) (after : Option Token) : Bool :=
  after != some (.mark '<') && (!t.isMark || isLoose before after)

/-- What a pass writes for a token, if the token is one to replace. -/
def replacement? (v : Vocabulary) (before : Option Token) (t : Token) (after : Option Token) :
    Option String :=
  if standsAlone before t after then v.get? (String.ofList t.text) else none

/-- Whether a pass finds a token to replace. -/
def hasReplacement (v : Vocabulary) : Option Token → List Token → Bool
  | _, [] => false
  | before, t :: ts =>
    (replacement? v before t ts.head?).isSome || hasReplacement v (some t) ts

/-- The text that a pass over the tokens after `before` writes. -/
def substitute (v : Vocabulary) : Option Token → List Token → List Char
  | _, [] => []
  | before, t :: ts =>
    (match replacement? v before t ts.head? with
      | some r => r.toList
      | none => t.text) ++ substitute v (some t) ts

/-- The text after passes until nothing is left to replace, `n` passes at most. -/
def settle (v : Vocabulary) : Nat → List Char → List Char
  | 0, cs => cs
  | n + 1, cs =>
    if hasReplacement v none (tokenize cs) then settle v n (substitute v none (tokenize cs))
    else cs

/-- The number of passes after which a vocabulary that never settles is left alone. -/
def passLimit : Nat := 32

theorem substitute_of_some {v : Vocabulary} {before : Option Token} {t : Token}
    {ts : List Token} {r : String} (h : replacement? v before t ts.head? = some r) :
    substitute v before (t :: ts) = r.toList ++ substitute v (some t) ts := by
  rw [substitute, h]

theorem substitute_of_none {v : Vocabulary} {before : Option Token} {t : Token}
    {ts : List Token} (h : replacement? v before t ts.head? = none) :
    substitute v before (t :: ts) = t.text ++ substitute v (some t) ts := by
  rw [substitute, h]

/-- A pass that finds nothing to replace would write its text again. -/
theorem substitute_of_not_hasReplacement (v : Vocabulary) {before : Option Token}
    {ts : List Token} (h : hasReplacement v before ts = false) :
    substitute v before ts = textOf ts := by
  induction ts generalizing before with
  | nil => rfl
  | cons t ts ih =>
    rw [hasReplacement, Bool.or_eq_false_iff] at h
    have ht : replacement? v before t ts.head? = none := by simpa using h.1
    rw [substitute_of_none ht, ih h.2, textOf_cons]

end Ambient.TypeText
