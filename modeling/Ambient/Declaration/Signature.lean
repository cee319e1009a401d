/-
  Signatures: parameter lists, names and modifiers of a method, and the line that declares it.
-/
import Ambient.Database
import Ambient.Settings.Basic
import Ambient.TypeText.Translate

namespace Ambient

open TypeText

/-- What types are translated with: the names that an index knows, and a vocabulary. -/
def Index.scope (i : Index) (v : Vocabulary) : Scope := ⟨i.knows, v⟩

/-- The type of a reference. -/
def TypeText.Scope.translateRef (s : Scope) (ref : Option TypeRef) : String :=
  match ref.bind TypeRef.name? with
  | some name => s.translate name
  | none => unknownType

namespace Declaration

/-- The indentation of the members of a class. -/
def indent : String := "    "

/-! ## Parameters -/

/-- The brackets behind the type of a parameter with dimensions. -/
def arraySuffix (ref : Option TypeRef) : String :=
  match ref with
  | some r => if r.name?.isSome && r.dimensions != 0 then "[]" else ""
  | none => ""

/-- Parameters as they are declared. From the first optional one on, or from one with the name
`varargs`, all are optional. -/
def paramTexts (s : Scope) : Bool → List Param → List String
  | _, [] => []
  | optional, p :: ps =>
    let optional := optional || p.optional || p.name == "varargs"
    (p.name ++ (if optional then "?" else "") ++ ": " ++ s.translateRef p.type ++
      arraySuffix p.type) :: paramTexts s optional ps

/-- A parameter list. -/
def paramList (s : Scope) (ps : List Param) : String :=
  ", ".intercalate (paramTexts s false ps)

/-! ## Names -/

/-- Whether a text is an identifier of letters, digits and underscores. -/
def isIdentifier : List Char → Bool
  | [] => false
  | c :: cs => (c.isAlpha || c == '_') && cs.all fun c => c.isAlphanum || c == '_'

/-- A name as it is declared: in quotes unless it is an identifier. -/
def memberName (name : String) : String :=
  if isIdentifier name.toList then name else "\"" ++ name ++ "\""

/-! ## Lines -/

/-- What the declaration of a method says. Without a return type it returns nothing. A comment
block, if there is one, may have a description. -/
structure Signature where
  access : Option Access
  isStatic : Bool
  isAbstract : Bool
  fromMixin : Bool
  params : List Param
  returns : Option String
  comment : Option (Option String)
  hidden : Bool

/-- The signature of an accessor. -/
def Signature.accessor (params : List Param) (returns : Option String) : Signature :=
  ⟨none, false, false, false, params, returns, none, false⟩

/-- The words before the name of a method. -/
def Signature.modifiers (sig : Signature) : String :=
  (match sig.access.bind Access.modifier? with
    | some word => word ++ " "
    | none => "") ++
  (if sig.isStatic then "static " else "") ++ (if sig.isAbstract then "abstract " else "")

/-- The remark behind the declaration of a method. -/
def Signature.remark (sig : Signature) : String :=
  let words := (if sig.isAbstract then "Abstract " else "") ++
    (if sig.fromMixin then "Mixin " else "")
  if words = "" then "" else " // " ++ words

/-- The line that declares a method. A hidden one is commented out. -/
def Signature.line (sig : Signature) (s : Scope) (name : String) : String :=
  indent ++ (if sig.hidden then "// " else "") ++ sig.modifiers ++ memberName name ++ "(" ++
    paramList s sig.params ++ "): " ++ sig.returns.getD "void" ++ ";" ++ sig.remark ++ "\n"

end Declaration

end Ambient
