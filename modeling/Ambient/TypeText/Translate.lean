/-
  Translation of a documentation type into a declaration type: vocabulary first, then the cut
  at a nullability mark, then the global root of a declared class, else the built-in
  rewritings.
-/
import Ambient.TypeText.Builtin

namespace Ambient.TypeText

/-- The type for which nothing better is known. -/
def unknownType : String := "any"

/-- What a type expression is translated with: the classes that are declared, and the words
of the documentation. -/
structure Scope where
  declared : String → Bool
  vocabulary : Vocabulary

/-- A text without its empty pairs of square brackets. -/
def dropBrackets : List Char → List Char
  | '[' :: ']' :: cs => dropBrackets cs
  | c :: cs => c :: dropBrackets cs
  | [] => []

/-- Whether a text is the dotted name of a declared class. -/
def Scope.declaresDotted (s : Scope) (name : List Char) : Bool :=
  name.contains '.' && s.declared (String.ofList name)

/-- Whether a text is a declared class or arrays of one. -/
def Scope.isGlobalClass (s : Scope) (name : List Char) : Bool :=
  s.declaresDotted name || s.declaresDotted (dropBrackets name)

/-- The part of a settled text that is translated: what stands before the first `?`. -/
def Scope.settled (s : Scope) (type : String) : List Char :=
  (settle s.vocabulary passLimit type.toList).takeWhile (· != '?')

/-- The declaration type for a documentation type. -/
def Scope.translate (s : Scope) (type : String) : String :=
  if type = "" || type = "[[ Function ]]" then unknownType
  else if type = "Array" then "any[]"
  else
    let name := s.settled type
    if name = [] then unknownType
    else if s.isGlobalClass name then "globalThis." ++ String.ofList name
    else String.ofList (rewriteBuiltins name)

/-- A text that is not recognised as it stands is translated by what it settles to. -/
theorem Scope.translate_of_not_special {s : Scope} {type : String} (nonempty : type ≠ "")
    (not_placeholder : type ≠ "[[ Function ]]") (not_array : type ≠ "Array") :
    s.translate type =
      if s.settled type = [] then unknownType
      else if s.isGlobalClass (s.settled type) then
        "globalThis." ++ String.ofList (s.settled type)
      else String.ofList (rewriteBuiltins (s.settled type)) := by
  rw [translate, if_neg (by simp [nonempty, not_placeholder]), if_neg not_array]

end Ambient.TypeText
