/-
  Tokens of a type expression: maximal runs of letters, digits and dots are words, every other
  character is a mark of its own. Main statement: `textOf_tokenize` (the tokens of a text make
  up the text).
-/

namespace Ambient.TypeText

/-- A character of a word. A dotted name is one word. -/
def isWordChar (c : Char) : Bool := c.isAlphanum || c == '.'

/-- A piece of a type expression. -/
inductive Token
  | word (text : List Char)
  | mark (c : Char)
deriving DecidableEq, Repr

/-- The text of a token. -/
def Token.text : Token → List Char
  | .word w => w
  | .mark c => [c]

/-- Whether a token is a mark. -/
def Token.isMark : Token → Bool
  | .word _ => false
  | .mark _ => true

/-- The text of tokens in a row. -/
def textOf (ts : List Token) : List Char := ts.flatMap Token.text

/-- A character in front of the tokens that follow it: a word character joins a word. -/
def consChar (c : Char) (ts : List Token) : List Token :=
  if isWordChar c then
    match ts with
    | .word w :: ts => .word (c :: w) :: ts
    | ts => .word [c] :: ts
  else .mark c :: ts

/-- The tokens of a text. -/
def tokenize (cs : List Char) : List Token := cs.foldr consChar []

@[simp] theorem textOf_nil : textOf [] = [] := rfl

@[simp] theorem textOf_cons (t : Token) (ts : List Token) :
    textOf (t :: ts) = t.text ++ textOf ts := rfl

@[simp] theorem textOf_append (ts us : List Token) :
    textOf (ts ++ us) = textOf ts ++ textOf us := List.flatMap_append

theorem textOf_consChar (c : Char) (ts : List Token) :
    textOf (consChar c ts) = c :: textOf ts := by
  unfold consChar
  split
  · split <;> simp [Token.text]
  · simp [Token.text]

/-- Nothing of a text is lost in its tokens. -/
theorem textOf_tokenize (cs : List Char) : textOf (tokenize cs) = cs := by
  induction cs with
  | nil => rfl
  | cons c cs ih => rw [tokenize, List.foldr_cons, textOf_consChar]; exact congrArg (c :: ·) ih

end Ambient.TypeText
