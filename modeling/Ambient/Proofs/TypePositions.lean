/-
  Type positions: a reference to a type as the type of a parameter, and as the type that a method
  returns. Both positions translate the name that the reference leads to, but only a parameter
  has brackets for the dimensions that come with the name. Main statements: `TypeRef.leadsTo_iff`
  (what a reference leads to), `Signature.line_eq_lineWith` (where types stand in the line of a
  method) and `Subject.signature_types`.
-/
import Ambient.Proofs.BlockEntries
import Ambient.Proofs.Retranslation

namespace Ambient

open TypeText Declaration

/-! ## References -/

/-- A reference leads to a name with dimensions. Of alternatives, only a single one does. -/
inductive TypeRef.LeadsTo : TypeRef → String → UInt32 → Prop
  | name (text : String) : (name text).LeadsTo text 0
  | sized (text : String) (dimensions : UInt32) : (sized text dimensions).LeadsTo text dimensions
  | only {ref : TypeRef} {text : String} {dimensions : UInt32} (h : ref.LeadsTo text dimensions) :
    (alternatives [ref]).LeadsTo text dimensions

theorem TypeRef.leadsTo_iff {ref : TypeRef} {text : String} {dimensions : UInt32} :
    ref.LeadsTo text dimensions ↔ ref.name? = some text ∧ ref.dimensions = dimensions := by
  constructor
  · intro leads
    induction leads with
    | name text => exact ⟨rfl, rfl⟩
    | sized text dimensions => exact ⟨rfl, rfl⟩
    | only _ ih => exact ih
  · intro read
    obtain ⟨named, rfl⟩ := read
    induction ref using TypeRef.name?.induct with
    | case1 other =>
      obtain rfl : other = text := Option.some.inj named
      exact .name _
    | case2 other d =>
      obtain rfl : other = text := Option.some.inj named
      exact .sized _ d
    | case3 ref ih => exact .only (ih named)
    | case4 refs several =>
      rw [TypeRef.name?] at named
      · cases named
      · exact several

/-! ## The two positions -/

namespace TypeText.Scope

variable {s : Scope} {ref : Option TypeRef}

/-- The type of a parameter as it is declared. -/
def paramType (s : Scope) (ref : Option TypeRef) : String := s.translateRef ref ++ arraySuffix ref

theorem translateRef_of_leadsTo {r : TypeRef} {text : String} {d : UInt32}
    (leads : r.LeadsTo text d) : s.translateRef (some r) = s.translate text := by
  have named := (TypeRef.leadsTo_iff.mp leads).1
  simp only [translateRef, Option.bind_some, named]

theorem arraySuffix_of_leadsTo {r : TypeRef} {text : String} {d : UInt32}
    (leads : r.LeadsTo text d) : arraySuffix (some r) = if d = 0 then "" else "[]" := by
  obtain ⟨named, rfl⟩ := TypeRef.leadsTo_iff.mp leads
  simp [arraySuffix, named]

/-- A reference that leads to no name has no known type. -/
theorem translateRef_of_not_leadsTo (astray : ∀ r ∈ ref, ∀ text d, ¬ r.LeadsTo text d) :
    s.translateRef ref = unknownType ∧ arraySuffix ref = "" := by
  cases ref with
  | none => exact ⟨rfl, rfl⟩
  | some r =>
    have unnamed : r.name? = none := by
      by_contra named
      obtain ⟨text, named⟩ := Option.ne_none_iff_exists'.mp named
      exact astray r rfl text r.dimensions (TypeRef.leadsTo_iff.mpr ⟨named, rfl⟩)
    simp [translateRef, arraySuffix, unnamed]

/-- Both positions have the same type just when there are no dimensions. -/
theorem translateRef_eq_paramType_iff (s : Scope) (ref : Option TypeRef) :
    s.translateRef ref = s.paramType ref ↔ ∀ r ∈ ref, ∀ text d, r.LeadsTo text d → d = 0 := by
  have no_suffix : s.translateRef ref = s.paramType ref ↔ arraySuffix ref = "" := by
    rw [paramType, eq_comm, String.append_eq_left_iff]
  rw [no_suffix]
  constructor
  · intro bare r hr text d leads
    obtain rfl := Option.mem_def.mp hr
    rw [arraySuffix_of_leadsTo leads] at bare
    by_contra sized
    simp [sized] at bare
  · intro flat
    by_cases astray : ∀ r ∈ ref, ∀ text d, ¬ r.LeadsTo text d
    · exact (translateRef_of_not_leadsTo (s := s) astray).2
    · push Not at astray
      obtain ⟨r, hr, text, d, leads⟩ := astray
      obtain rfl := Option.mem_def.mp hr
      rw [arraySuffix_of_leadsTo leads, if_pos (flat r hr text d leads)]

end TypeText.Scope

namespace Declaration

/-- What stands before the types in a parameter list: the names, and the marks of those that are
optional. -/
def paramHeads : Bool → List Param → List String
  | _, [] => []
  | optional, p :: ps =>
    let optional := optional || p.optional || p.name == "varargs"
    (p.name ++ (if optional then "?" else "") ++ ": ") :: paramHeads optional ps

theorem paramTexts_eq (s : Scope) (optional : Bool) (ps : List Param) :
    paramTexts s optional ps =
      List.zipWith (· ++ ·) (paramHeads optional ps) (ps.map fun p => s.paramType p.type) := by
  induction ps generalizing optional with
  | nil => rfl
  | cons p ps ih =>
    simp only [paramTexts, paramHeads, List.map_cons, List.zipWith_cons_cons, ih,
      Scope.paramType, String.append_assoc]

/-- The line that declares a method, with given types for its parameters and for what it
returns. -/
def Signature.lineWith (sig : Signature) (name : String) (types : List String)
    (returned : String) : String :=
  indent ++ (if sig.hidden then "// " else "") ++ sig.modifiers ++ memberName name ++ "(" ++
    ", ".intercalate (List.zipWith (· ++ ·) (paramHeads false sig.params) types) ++ "): " ++
    returned ++ ";" ++ sig.remark ++ "\n"

theorem Signature.line_eq_lineWith (sig : Signature) (s : Scope) (name : String) :
    sig.line s name =
      sig.lineWith name (sig.params.map fun p => s.paramType p.type) (sig.returns.getD "void") := by
  rw [line, lineWith, paramList, paramTexts_eq]

end Declaration

namespace Subject

/-- The line of an entry has for each parameter the type of its reference in one position, and
for what is returned the type in the other. A reference has the same type in both just when it
leads to no name with dimensions. If it leads to one, the parameter's type has a pair of brackets
that the other lacks; if it leads to no name at all, both are the unknown type. -/
theorem signature_types (s : Subject) (owner : Record) (isStatic : Bool) (name : String)
    (m : Method) :
    (s.signature owner isStatic name m).line s.scope name =
        (s.signature owner isStatic name m).lineWith name
          (m.params.map fun p => s.scope.paramType p.type)
          (m.returns.elim "void" fun r => s.scope.translateRef r.type) ∧
      ∀ ref : Option TypeRef,
        (s.scope.translateRef ref = s.scope.paramType ref ↔
          ∀ r ∈ ref, ∀ text d, r.LeadsTo text d → d = 0) ∧
        (∀ r ∈ ref, ∀ text d, r.LeadsTo text d →
          s.scope.translateRef ref = s.scope.translate text ∧
            s.scope.paramType ref = s.scope.translate text ++ if d = 0 then "" else "[]") ∧
        ((∀ r ∈ ref, ∀ text d, ¬ r.LeadsTo text d) →
          s.scope.translateRef ref = unknownType ∧ s.scope.paramType ref = unknownType) := by
  refine ⟨?_, fun ref => ⟨Scope.translateRef_eq_paramType_iff s.scope ref, ?_, ?_⟩⟩
  · rw [Signature.line_eq_lineWith]
    cases returned : m.returns <;> simp [signature, returned]
  · intro r hr text d leads
    obtain rfl := Option.mem_def.mp hr
    rw [Scope.paramType, Scope.translateRef_of_leadsTo leads, Scope.arraySuffix_of_leadsTo leads]
    exact ⟨rfl, rfl⟩
  · intro astray
    obtain ⟨unknown, bare⟩ := Scope.translateRef_of_not_leadsTo (s := s.scope) astray
    rw [Scope.paramType, unknown, bare, String.append_empty]
    exact ⟨rfl, rfl⟩

/-- A class whose method takes and returns lists. -/
def lists : Subject := Index.subject ⟨.empty, [], .empty⟩ .blank .blank "a.Lists"

/-- The method: its parameter and what it returns have the same reference. -/
def twice : Method :=
  { Method.plain with
    params := [⟨"xs", false, some (.sized "String" 1)⟩]
    returns := some ⟨some (.sized "String" 1)⟩ }

/-- What the method returns lacks the brackets. -/
theorem signature_types_differ :
    lists.scope.translateRef (some (.sized "String" 1)) ≠
        lists.scope.paramType (some (.sized "String" 1)) ∧
      (lists.signature .blank false "twice" twice).line lists.scope "twice" =
        "    twice(xs: String[]): String;\n" := by
  have settled : lists.scope.settled "String" = "String".toList := by decide +kernel
  have kept : rewriteBuiltins "String".toList = "String".toList := by
    rw [rewriteBuiltins, rewriteTokens_of_plain (by decide), textOf_tokenize]
  have string : lists.scope.translate "String" = "String" := by
    rw [Scope.translate_of_settled (by decide) (by decide) (by decide) settled (by decide),
      if_neg (by decide +kernel), kept, String.ofList_toList]
  have returned : lists.scope.translateRef (some (.sized "String" 1)) = "String" := by
    rw [Scope.translateRef_of_leadsTo (.sized "String" 1), string]
  have taken : lists.scope.paramType (some (.sized "String" 1)) = "String[]" := by
    rw [Scope.paramType, returned, Scope.arraySuffix_of_leadsTo (.sized "String" 1)]
    rfl
  refine ⟨by rw [returned, taken]; decide, ?_⟩
  rw [Signature.line_eq_lineWith]
  simp only [signature, twice, List.map_cons, List.map_nil, Option.map_some, returned, taken]
  decide +kernel

end Subject

end Ambient
